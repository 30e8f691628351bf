/-
Merging a schema with itself.

Combining leaves an object as it is when the other one has nothing else (`combine_of_agree`), so a
schema merged with itself is the schema unless something in it changes that merging goes through:
the entries of its maps of schemas, and its item schema (`merge_obj_self_iff`).  What merging goes
through comes to its end at values that are no objects.  A boolean schema is one, and two of them
are put side by side, equal or not.  So a schema merged with itself is the schema exactly where
merging meets no boolean (`mergeAll_self_iff`).
-/
import SchemaForm.Proofs.Schema.Keeping

namespace SchemaForm

namespace Schema

variable {s a : Json} {members first second acc : Members}

/-! ## Combining -/

/-- What the first schema has already is not written again. -/
theorem combineMembers_of_agree (hsecond : ∀ entry ∈ second, entry.2.Distinct)
    (h : ∀ entry ∈ second, Table.get? first entry.1 = some entry.2) :
    combineMembers first acc second = some acc := by
  induction second with
  | nil => rw [combineMembers]
  | cons entry rest ih =>
      obtain ⟨key, value⟩ := entry
      rw [List.forall_mem_cons] at hsecond h
      have hsame : (value == value) = true := Json.same_refl hsecond.1
      rw [combineMembers]
      split
      · next hnone =>
          rw [h.1] at hnone
          cases hnone
      · next old hold =>
          rw [h.1] at hold
          obtain rfl := Option.some.inj hold
          rw [if_pos hsame, ih hsecond.2 h.2]

theorem combine_of_agree (hsecond : ∀ entry ∈ second, entry.2.Distinct)
    (h : ∀ entry ∈ second, Table.get? first entry.1 = some entry.2) :
    combine (.obj first) (.obj second) = .obj first := by
  have hmembers : combineMembers first first second = some first :=
    combineMembers_of_agree hsecond h
  unfold combine
  split
  · next hempty =>
      obtain rfl := List.isEmpty_iff.mp hempty
      cases second with
      | nil => rfl
      | cons entry _ => cases h entry List.mem_cons_self
  · split
    · rfl
    · simp only [hmembers]

theorem combine_self_obj (hd : (Json.obj members).Distinct) :
    combine (.obj members) (.obj members) = .obj members :=
  combine_of_agree (Json.distinctMembers_iff.mp hd.2) fun _ hm => Table.get?_of_mem hd.1 hm

/-- Other values are put side by side. -/
theorem combine_self_of_not_obj (hobj : s.isObj = false) :
    combine s s = if s.isEmpty then s else sideBySide s s := by
  cases s with
  | obj members => cases hobj
  | _ =>
      unfold combine
      split <;> rfl

theorem sideBySide_ne (hobj : s.isObj = false) (a : Json) : sideBySide a a ≠ s := by
  rintro rfl
  cases hobj

theorem combine_self_iff (hd : s.Distinct) :
    combine s s = s ↔ s.isObj = true ∨ s.isEmpty = true := by
  cases hobj : s.isObj with
  | true =>
      cases s with
      | obj members => exact iff_of_true (combine_self_obj hd) (.inl rfl)
      | _ => cases hobj
  | false =>
      rw [combine_self_of_not_obj hobj]
      cases s.isEmpty with
      | true => simp
      | false => simp [sideBySide_ne hobj]

/-! ## Merging -/

/-- An object merged with itself: its maps and items are merged, and nothing is added. -/
theorem merge_obj_self (hd : (Json.obj members).Distinct) :
    merge (.obj members) (.obj members) = .obj (sides members members).1 := by
  obtain ⟨-, hright⟩ := sides_distinct hd hd
  rw [merge_obj]
  refine combine_of_agree (Json.distinctMembers_iff.mp hright.2) fun entry hm => ?_
  have hget := Table.get?_of_mem hright.1 hm
  rw [get?_sides_right hd.1] at hget
  split at hget
  · cases hget
  · next hjoint =>
      rw [get?_sides_left, Option.not_isSome_iff_eq_none.mp hjoint, hget]
      rfl

theorem settle_of_get? {key : String} {value : Option Json} {sides : Members × Members}
    (hsides : sides.1 = members) (h : ∀ v, value = some v → Table.get? members key = some v) :
    (settle key value sides).1 = members := by
  cases value with
  | none => exact hsides
  | some v => exact (Table.insert_of_get? (hsides ▸ h v rfl)).trans hsides

theorem sides_self_iff : (sides members members).1 = members ↔
    ∀ key v, joint? members members key = some v → Table.get? members key = some v := by
  constructor
  · intro h key v hjoint
    rw [← h, get?_sides_left, hjoint]
    rfl
  · intro h
    have hmap : ∀ key ∈ mergedMaps, ∀ v, mergeMap? key members members = some v →
        Table.get? members key = some v := by
      intro key hkey v hv
      have hitems : key ≠ "items" := by
        rintro rfl
        exact absurd hkey (by decide)
      exact h key v (by rw [joint?, if_neg hitems, if_pos hkey, hv])
    have hproperties : (settle "properties" (mergeMap? "properties" members members)
        (members, members)).1 = members :=
      settle_of_get? rfl (hmap "properties" (by decide))
    have hpatterns := settle_of_get? hproperties (hmap "patternProperties" (by decide))
    have hdefinitions := settle_of_get? hpatterns (hmap "definitions" (by decide))
    exact settle_of_get? hdefinitions (h "items")

/-- A map merged with itself. -/
theorem mergeEntries_self_iff {entries : Members} (hn : (Table.names entries).Nodup) :
    mergeEntries entries entries entries = entries ↔
      ∀ entry ∈ entries, merge entry.2 entry.2 = entry.2 := by
  constructor
  · intro h entry hm
    have hget := Table.get?_of_mem hn hm
    have hmerged : Table.get? (mergeEntries entries entries entries) entry.1 = some entry.2 := by
      rw [h, hget]
    rw [get?_mergeEntries hn, hget] at hmerged
    exact Option.some.inj hmerged
  · intro h
    suffices hpart : ∀ right, right ⊆ entries → mergeEntries entries entries right = entries from
      hpart entries (List.Subset.refl _)
    intro right hsub
    induction right with
    | nil => rw [mergeEntries]
    | cons entry rest ih =>
        obtain ⟨name, value⟩ := entry
        obtain ⟨hm, hrest⟩ := List.cons_subset.mp hsub
        have hget := Table.get?_of_mem hn hm
        have hvalue : merge value value = value := h _ hm
        simp only [mergeEntries, hget, hvalue, Table.insert_of_get? hget, ih hrest]

/-- An object merged with itself is the object where its item schema and the entries of its maps
are what they are when merged with themselves. -/
theorem merge_obj_self_iff (hd : (Json.obj members).Distinct) :
    merge (.obj members) (.obj members) = .obj members ↔
      (∀ items, Table.get? members "items" = some (.obj items) →
        merge (.obj items) (.obj items) = .obj items) ∧
      ∀ key ∈ mergedMaps, ∀ entries, Table.get? members key = some (.obj entries) →
        ∀ entry ∈ entries, merge entry.2 entry.2 = entry.2 := by
  rw [merge_obj_self hd, Json.obj.injEq, sides_self_iff]
  constructor
  · intro h
    constructor
    · intro items hitems
      have hget := h _ _ (joint?_eq_some.mpr ⟨_, _, hitems, hitems, .inl ⟨rfl, rfl⟩⟩)
      exact Option.some.inj (hget.symm.trans hitems)
    · intro key hkey entries hentries
      have hget := h _ _ (joint?_eq_some.mpr ⟨_, _, hentries, hentries, .inr ⟨hkey, rfl⟩⟩)
      have hmerged := Json.obj.inj (Option.some.inj (hget.symm.trans hentries))
      exact (mergeEntries_self_iff (hd.member hentries).1).mp hmerged
  · rintro ⟨hitems, hmaps⟩ key v hjoint
    obtain ⟨left, right, hleft, hright, hv⟩ := joint?_eq_some.mp hjoint
    obtain rfl : left = right := Json.obj.inj (Option.some.inj (hleft.symm.trans hright))
    rcases hv with ⟨rfl, rfl⟩ | ⟨hkey, rfl⟩
    · rw [hitems left hleft, hleft]
    · rw [(mergeEntries_self_iff (hd.member hleft).1).mpr (hmaps key hkey left hleft), hleft]

/-! ## What merging meets -/

/-- Merging a schema with itself merges the value with itself. -/
inductive Meets : Json → Json → Prop
  | self (s : Json) : Meets s s
  | entry {members entries : Members} {key name : String} {v t : Json} : key ∈ mergedMaps →
      Table.get? members key = some (.obj entries) → (name, v) ∈ entries → Meets v t →
      Meets (.obj members) t
  | items {members items : Members} {t : Json} :
      Table.get? members "items" = some (.obj items) → Meets (.obj items) t → Meets (.obj members) t

theorem meets_of_not_obj {t : Json} (hobj : s.isObj = false) : Meets s t ↔ t = s := by
  constructor
  · intro h
    cases h with
    | self => rfl
    | entry | items => cases hobj
  · rintro rfl
    exact .self t

theorem forall_meets_obj {P : Json → Prop} : (∀ t, Meets (.obj members) t → P t) ↔
    P (.obj members) ∧
      (∀ items, Table.get? members "items" = some (.obj items) →
        ∀ t, Meets (.obj items) t → P t) ∧
      ∀ key ∈ mergedMaps, ∀ entries, Table.get? members key = some (.obj entries) →
        ∀ entry ∈ entries, ∀ t, Meets entry.2 t → P t := by
  constructor
  · intro h
    exact ⟨h _ (.self _), fun _ hitems t ht => h t (.items hitems ht),
      fun _ hkey _ hentries _ hm t ht => h t (.entry hkey hentries hm ht)⟩
  · rintro ⟨hself, hitems, hmaps⟩ t ht
    cases ht with
    | self => exact hself
    | entry hkey hentries hm ht => exact hmaps _ hkey _ hentries _ hm t ht
    | items hmember ht => exact hitems _ hmember t ht

/-- A value merged with itself is the value where all that merging meets is an object or empty. -/
theorem merge_self_iff (hd : s.Distinct) :
    merge s s = s ↔ ∀ t, Meets s t → t.isObj = true ∨ t.isEmpty = true := by
  induction hn : s.size using Nat.strongRecOn generalizing s with
  | ind n ih =>
      subst hn
      cases hobj : s.isObj with
      | false =>
          have hunjoined : Unjoined s s := by
            rintro first second rfl
            cases hobj
          rw [merge_of_unjoined hunjoined, combine_self_iff hd]
          simp only [meets_of_not_obj hobj, forall_eq]
      | true =>
          cases s with
          | obj members =>
              have hsmall : ∀ {key v}, Table.get? members key = some v →
                  v.size < (Json.obj members).size := by
                intro key v hv
                have hle := Json.size_le_of_get? hv
                have hsize : (Json.obj members).size = 1 + Json.sizeMembers members := by
                  rw [Json.size]
                omega
              rw [merge_obj_self_iff hd, forall_meets_obj]
              simp only [Json.isObj, Json.obj?, Option.isSome_some, true_or, true_and]
              refine and_congr (forall₂_congr fun items hitems => ?_)
                (forall₂_congr fun key _ => forall₂_congr fun entries hentries =>
                  forall₂_congr fun entry hm => ?_)
              · exact ih _ (hsmall hitems) (hd.member hitems) rfl
              · have hsize := hsmall hentries
                have hentry : entry.2.size ≤ Json.sizeMembers entries := Json.size_le_of_member hm
                rw [Json.size] at hsize
                exact ih _ (by omega)
                  (Json.distinctMembers_iff.mp (hd.member hentries).2 entry hm) rfl
          | _ => cases hobj

/-- **Merging a schema with itself changes nothing, but for booleans.**  Where the schema, and all
that merging goes through in it, is an object or a boolean, the schema merged with itself is the
schema, its order included, if and only if none of that is a boolean; and combined with itself it
is the schema if and only if it is none itself. -/
theorem mergeAll_self_iff (hd : s.Distinct)
    (hschema : ∀ t, Meets s t → t.isObj = true ∨ ∃ b, t = .bool b) :
    (mergeAll [s, s] = s ↔ ∀ b, ¬Meets s (.bool b)) ∧
      (combine s s = s ↔ ∀ b, s ≠ .bool b) := by
  have hkind : ∀ t, Meets s t → (t.isObj = true ∨ t.isEmpty = true ↔ ∀ b, t ≠ .bool b) := by
    intro t ht
    rcases hschema t ht with hobj | ⟨b, rfl⟩
    · refine iff_of_true (.inl hobj) ?_
      rintro b rfl
      cases hobj
    · exact iff_of_false (by simp [Json.isObj, Json.obj?, Json.isEmpty]) fun h => h b rfl
  constructor
  · rw [mergeAll_pair, merge_self_iff hd]
    constructor
    · exact fun h b hb => (hkind _ hb).mp (h _ hb) b rfl
    · exact fun h t ht => (hkind t ht).mpr fun b he => h b (he ▸ ht)
  · rw [combine_self_iff hd, hkind s (.self s)]

/-- A schema with schemas that merging goes through, and with booleans where it does not. -/
def nestedSchema : Json :=
  .obj [("definitions", .obj [("b", .obj [])]), ("enum", .arr [.bool true]),
    ("items", .obj [("items", .bool false)])]

theorem mergeAll_self_iff_nested :
    nestedSchema.Distinct ∧
      (∀ t, Meets nestedSchema t → t.isObj = true ∨ ∃ b, t = .bool b) ∧
      mergeAll [nestedSchema, nestedSchema] = nestedSchema ∧
      combine nestedSchema nestedSchema = nestedSchema := by
  have hd : nestedSchema.Distinct := by
    simp [nestedSchema, Json.Distinct, Json.DistinctItems, Json.DistinctMembers, Table.names]
  have hentry : ∀ t, Meets (.obj []) t → t.isObj = true :=
    forall_meets_obj.mpr ⟨rfl, fun _ h => (by cases h), fun _ _ _ h => (by cases h)⟩
  have hitems : ∀ t, Meets (.obj [("items", .bool false)]) t → t.isObj = true := by
    refine forall_meets_obj.mpr ⟨rfl, fun _ h => (by cases h), ?_⟩
    simp [mergedMaps, Table.get?]
  have hobj : ∀ t, Meets nestedSchema t → t.isObj = true := by
    refine forall_meets_obj.mpr ⟨rfl, fun items h => ?_, ?_⟩
    · obtain rfl := Json.obj.inj (Option.some.inj h)
      exact hitems
    · simp only [mergedMaps, List.forall_mem_cons]
      refine ⟨fun _ h => (by cases h), fun _ h => (by cases h), fun entries h => ?_, ?_⟩
      · obtain rfl := Json.obj.inj (Option.some.inj h)
        exact List.forall_mem_singleton.mpr hentry
      · exact fun _ hm => absurd hm List.not_mem_nil
  have hmeets : ∀ b, ¬Meets nestedSchema (.bool b) := fun b hb => by cases hobj _ hb
  have hschema : ∀ t, Meets nestedSchema t → t.isObj = true ∨ ∃ b, t = .bool b :=
    fun t ht => .inl (hobj t ht)
  refine ⟨hd, hschema, (mergeAll_self_iff hd hschema).1.mpr hmeets,
    (mergeAll_self_iff hd hschema).2.mpr ?_⟩
  exact fun b he => hmeets b (he ▸ .self _)

/-- The schema `true`, merged or combined with itself, is a list of two. -/
theorem not_mergeAll_self :
    ¬∀ s : Json, s.Distinct → s.isEmpty = false →
      (∀ t, Meets s t → t.isObj = true ∨ ∃ b, t = .bool b) →
      mergeAll [s, s] = s ∧ combine s s = s := by
  intro h
  have hmeets : ∀ t, Meets (.bool true) t → t.isObj = true ∨ ∃ b, t = .bool b :=
    fun t ht => .inr ⟨true, (meets_of_not_obj rfl).mp ht⟩
  have hself := (h (.bool true) trivial rfl hmeets).2
  rw [combine_self_of_not_obj rfl] at hself
  cases hself

end Schema

end SchemaForm
