/-
What building schemas keeps everywhere.

Combining and merging write names that are there, and `allOf` lists; moving requirements
writes their list.  A property of members that such writing and erasing keep (`Hereditary`)
holds everywhere in what is built, when it holds everywhere in what it is built of
(`merge_everywhere`, `collapseAllOf_everywhere`, `moveRequired_everywhere`).  That no name is
double is such a property (`merge_distinct`).
-/
import SchemaForm.Proofs.Json.Everywhere
import SchemaForm.Proofs.Schema.Combining

namespace SchemaForm

namespace Schema

variable {key : String} {a b v : Json} {first second acc made left right : Members}
  {xs ys : List Json}

/-- A property of members that writing and erasing names keep, as far as building schemas
does so: only names that are there and those of the list of requirements are written. -/
structure Hereditary (P : Members → Prop) : Prop where
  nil : P []
  single : ∀ v, P [("allOf", v)]
  insert : ∀ {ms ns : Members} {key : String} (v : Json), P ms → P ns → key ∈ Table.names ns →
    P (Table.insert ms key v)
  required : ∀ {ms : Members} (v : Json), P ms → P (Table.insert ms "required" v)
  erase : ∀ {ms : Members} (key : String), P ms → P (Table.swapErase ms key)

section Kept

variable {P : Members → Prop} (hP : Hereditary P)

theorem typeList?_everywhere (ha : a.Everywhere P) (h : typeList? a = some xs) :
    ∀ x ∈ xs, x.Everywhere P := by
  unfold typeList? at h
  split at h
  · obtain rfl := Option.some.inj h
    intro x hx
    exact List.mem_singleton.mp hx ▸ trivial
  · obtain rfl := Option.some.inj h
    exact Json.everywhere_arr.mp ha
  · cases h

theorem intersectTypes?_everywhere (ha : a.Everywhere P) (h : intersectTypes? a b = some v) :
    v.Everywhere P := by
  obtain ⟨names, hn, h⟩ := Option.bind_eq_some_iff.mp h
  obtain ⟨others, -, h⟩ := Option.bind_eq_some_iff.mp h
  have hcommon : ∀ x ∈ names.filter others.contains, x.Everywhere P := fun x hx =>
    typeList?_everywhere ha hn x (List.mem_filter.mp hx).1
  split at h
  · next name hone =>
      obtain rfl := Option.some.inj h
      rw [hone] at hcommon
      split
      · exact hcommon name List.mem_cons_self
      · exact Json.everywhere_arr.mpr hcommon
  · obtain rfl := Option.some.inj h
    exact Json.everywhere_arr.mpr hcommon

theorem combineLimit?_everywhere (ha : a.Everywhere P) (hb : b.Everywhere P)
    (h : combineLimit? key a b = some v) : v.Everywhere P := by
  have hside : v = a ∨ v = b → v.Everywhere P := by
    rintro (rfl | rfl)
    · exact ha
    · exact hb
  unfold combineLimit? at h
  split at h
  · exact intersectTypes?_everywhere ha h
  split at h
  · split at h
    · obtain rfl := Option.some.inj h
      refine Json.everywhere_arr.mpr fun x hx => ?_
      cases List.mem_append.mp hx with
      | inl hx => exact Json.everywhere_arr.mp ha x hx
      | inr hx => exact Json.everywhere_arr.mp hb x (List.mem_filter.mp hx).1
    · cases h
  split at h
  · split at h
    · exact Option.some.inj h ▸ trivial
    · cases h
  split at h
  · exact Option.some.inj h ▸ trivial
  split at h
  · exact hside (tighter?_cases h)
  split at h
  · exact hside (tighter?_cases h)
  · cases h

include hP in
theorem sideBySide_everywhere (ha : a.Everywhere P) (hb : b.Everywhere P) :
    (sideBySide a b).Everywhere P := by
  refine Json.everywhere_obj.mpr ⟨hP.single _, ?_⟩
  rintro entry hm
  rw [List.mem_singleton.mp hm]
  exact ⟨ha, hb, trivial⟩

/-- Combining schemas that together are no larger than the number keeps the property. -/
def CombinesKeep (P : Members → Prop) (n : Nat) : Prop :=
  ∀ {a b : Json}, a.size + b.size ≤ n → a.Everywhere P → b.Everywhere P →
    (combine a b).Everywhere P

theorem combineEach_everywhere {n : Nat} (ih : CombinesKeep P n) (hb : b.Everywhere P)
    (hn : Json.sizeItems xs + b.size ≤ n) (hxs : ∀ x ∈ xs, x.Everywhere P) :
    ∀ y ∈ combineEach b xs, y.Everywhere P := by
  induction xs with
  | nil =>
      rw [combineEach]
      exact fun y hy => absurd hy List.not_mem_nil
  | cons x xs ihxs =>
      rw [combineEach]
      rw [Json.sizeItems] at hn
      intro y hy
      rcases List.mem_cons.mp hy with rfl | hy
      · exact ih (by omega) (hxs x List.mem_cons_self) hb
      · exact ihxs (by omega) (fun z hz => hxs z (List.mem_cons_of_mem _ hz)) y hy

theorem combineKeyword_everywhere {n : Nat} (ih : CombinesKeep P n) (hn : a.size + b.size ≤ n)
    (ha : a.Everywhere P) (hb : b.Everywhere P) (h : combineKeyword key a b = some v) :
    v.Everywhere P := by
  unfold combineKeyword at h
  split at h
  · split at h
    · obtain rfl := Option.some.inj h
      exact Json.everywhere_arr.mpr fun x hx =>
        Json.everywhere_arr.mp ha x (List.mem_filter.mp hx).1
    · obtain rfl := Option.some.inj h
      exact ih hn ha hb
    · next xs second =>
        obtain rfl := Option.some.inj h
        simp only [Json.size] at hn
        refine Json.everywhere_arr.mpr (combineEach_everywhere ih hb ?_ (Json.everywhere_arr.mp ha))
        simp only [Json.size]
        omega
    · next first ys =>
        obtain rfl := Option.some.inj h
        simp only [Json.size] at hn
        refine Json.everywhere_arr.mpr (combineEach_everywhere ih ha ?_ (Json.everywhere_arr.mp hb))
        simp only [Json.size]
        omega
    · cases h
  · exact combineLimit?_everywhere ha hb h

include hP in
theorem insert_everywhere {members others : Members} (h : (Json.obj members).Everywhere P)
    (ho : (Json.obj others).Everywhere P) (hkey : key ∈ Table.names others)
    (hv : v.Everywhere P) : (Json.obj (Table.insert members key v)).Everywhere P := by
  rw [Json.everywhere_obj] at h ho ⊢
  refine ⟨hP.insert v h.1 ho.1 hkey, fun entry hm => ?_⟩
  rcases Table.mem_insert hm with rfl | hm
  · exact hv
  · exact h.2 entry hm

include hP in
theorem swapErase_everywhere {members : Members} (h : (Json.obj members).Everywhere P)
    (key : String) : (Json.obj (Table.swapErase members key)).Everywhere P := by
  rw [Json.everywhere_obj] at h ⊢
  exact ⟨hP.erase key h.1, fun entry hm => h.2 entry (Table.mem_swapErase hm)⟩

include hP in
theorem combineMembers_everywhere {n : Nat} (ih : CombinesKeep P n)
    (hfirst : (Json.obj first).Everywhere P) (hacc : (Json.obj acc).Everywhere P)
    {others : Members} (hothers : (Json.obj others).Everywhere P) (hsub : second ⊆ others)
    (hn : Json.sizeMembers first + Json.sizeMembers second ≤ n)
    (h : combineMembers first acc second = some made) : (Json.obj made).Everywhere P := by
  induction second generalizing acc with
  | nil =>
      rw [combineMembers] at h
      exact Option.some.inj h ▸ hacc
  | cons entry rest ihrest =>
      obtain ⟨name, value⟩ := entry
      rw [Json.sizeMembers] at hn
      obtain ⟨hmem, hrest⟩ := List.cons_subset.mp hsub
      have hvalue : value.Everywhere P := (Json.everywhere_obj.mp hothers).2 _ hmem
      have hname : name ∈ Table.names others := Table.mem_names.mpr ⟨value, hmem⟩
      rw [combineMembers] at h
      split at h
      · exact ihrest (insert_everywhere hP hacc hothers hname hvalue) hrest (by omega) h
      · next old hold =>
          split at h
          · exact ihrest hacc hrest (by omega) h
          · split at h
            · next both hboth =>
                have hsize := Json.size_le_of_get? hold
                have hmade := combineKeyword_everywhere ih (by omega) (hfirst.member hold) hvalue
                  hboth
                exact ihrest (insert_everywhere hP hacc hothers hname hmade) hrest (by omega) h
            · cases h

include hP in
theorem combines_keep (n : Nat) : CombinesKeep P n := by
  induction n using Nat.strongRecOn with
  | ind n ih =>
      intro a b hn ha hb
      unfold combine
      split
      · exact hb
      split
      · exact ha
      split
      · next first second _ _ =>
          simp only [Json.size] at hn
          split
          · next members hmembers =>
              exact combineMembers_everywhere hP (ih (n - 1) (by omega)) ha ha hb
                (List.Subset.refl _) (by omega) hmembers
          · exact sideBySide_everywhere hP ha hb
      · exact sideBySide_everywhere hP ha hb

include hP in
theorem combine_everywhere (ha : a.Everywhere P) (hb : b.Everywhere P) :
    (combine a b).Everywhere P :=
  combines_keep hP _ (Nat.le_refl _) ha hb

include hP in
theorem settle_everywhere (sides : Members × Members) {value : Option Json}
    (hleft : (Json.obj sides.1).Everywhere P) (hright : (Json.obj sides.2).Everywhere P)
    (hfirst : (Json.obj first).Everywhere P)
    (hv : ∀ v, value = some v → key ∈ Table.names first ∧ v.Everywhere P) :
    (Json.obj (settle key value sides).1).Everywhere P ∧
      (Json.obj (settle key value sides).2).Everywhere P := by
  cases value with
  | none => exact ⟨hleft, hright⟩
  | some v =>
      obtain ⟨hkey, hv⟩ := hv v rfl
      exact ⟨insert_everywhere hP hleft hfirst hkey hv, swapErase_everywhere hP hright key⟩

/-- Merging with schemas that are no larger than the number keeps the property. -/
def MergesKeep (P : Members → Prop) (n : Nat) : Prop :=
  ∀ {a b : Json}, b.size ≤ n → a.Everywhere P → b.Everywhere P → (merge a b).Everywhere P

include hP in
theorem mergeEntries_everywhere {n : Nat} (ih : MergesKeep P n)
    (hleft : (Json.obj left).Everywhere P) (hacc : (Json.obj acc).Everywhere P)
    {others : Members} (hothers : (Json.obj others).Everywhere P) (hsub : right ⊆ others)
    (hn : Json.sizeMembers right ≤ n) : (Json.obj (mergeEntries left acc right)).Everywhere P := by
  induction right generalizing acc with
  | nil =>
      rw [mergeEntries]
      exact hacc
  | cons entry rest ihrest =>
      obtain ⟨name, value⟩ := entry
      rw [Json.sizeMembers] at hn
      obtain ⟨hmem, hrest⟩ := List.cons_subset.mp hsub
      have hvalue : value.Everywhere P := (Json.everywhere_obj.mp hothers).2 _ hmem
      rw [mergeEntries]
      refine ihrest (insert_everywhere hP hacc hothers (Table.mem_names.mpr ⟨value, hmem⟩) ?_)
        hrest (by omega)
      split
      · next old hold => exact ih (by omega) (hleft.member hold) hvalue
      · exact hvalue

include hP in
theorem sides_everywhere {n : Nat} (ih : MergesKeep P n) (hn : Json.sizeMembers second ≤ n)
    (ha : (Json.obj first).Everywhere P) (hb : (Json.obj second).Everywhere P) :
    (Json.obj (sides first second).1).Everywhere P ∧
      (Json.obj (sides first second).2).Everywhere P := by
  have hmap : ∀ key v, mergeMap? key first second = some v →
      key ∈ Table.names first ∧ v.Everywhere P := by
    intro key v hv
    obtain ⟨left, right, hl, hr, rfl⟩ := mergeMap?_eq_some.mp hv
    have hsize := Json.size_le_of_get? hr
    rw [Json.size] at hsize
    exact ⟨Table.mem_names.mpr ⟨_, Table.mem_of_get? hl⟩,
      mergeEntries_everywhere hP ih (ha.member hl) (ha.member hl) (hb.member hr)
        (List.Subset.refl _) (by omega)⟩
  have hitems : ∀ v, mergeItems? first second = some v →
      "items" ∈ Table.names first ∧ v.Everywhere P := by
    intro v hv
    obtain ⟨left, right, hl, hr, rfl⟩ := mergeItems?_eq_some.mp hv
    have hsize := Json.size_le_of_get? hr
    exact ⟨Table.mem_names.mpr ⟨_, Table.mem_of_get? hl⟩,
      ih (by omega) (ha.member hl) (hb.member hr)⟩
  have h₁ := settle_everywhere hP (first, second) ha hb ha (hmap "properties")
  have h₂ := settle_everywhere hP _ h₁.1 h₁.2 ha (hmap "patternProperties")
  have h₃ := settle_everywhere hP _ h₂.1 h₂.2 ha (hmap "definitions")
  exact settle_everywhere hP _ h₃.1 h₃.2 ha hitems

include hP in
theorem merges_keep (n : Nat) : MergesKeep P n := by
  induction n with
  | zero =>
      intro a b hn
      have := Json.size_pos b
      omega
  | succ n ih =>
      intro a b hn ha hb
      rcases merge_cases a b with ⟨-, hmerge⟩ | ⟨first, second, rfl, rfl, hmerge⟩
      · rw [hmerge]
        exact combine_everywhere hP ha hb
      · rw [Json.size] at hn
        obtain ⟨hleft, hright⟩ := sides_everywhere hP ih (by omega) ha hb
        rw [hmerge]
        exact combine_everywhere hP hleft hright

include hP in
theorem merge_everywhere (ha : a.Everywhere P) (hb : b.Everywhere P) : (merge a b).Everywhere P :=
  merges_keep hP _ (Nat.le_refl _) ha hb

include hP in
theorem foldl_merge_everywhere (ha : a.Everywhere P) (h : ∀ x ∈ xs, x.Everywhere P) :
    (xs.foldl merge a).Everywhere P := by
  induction xs generalizing a with
  | nil => exact ha
  | cons x xs ih =>
      rw [List.forall_mem_cons] at h
      exact ih (merge_everywhere hP ha h.1) h.2

include hP in
theorem mergeAll_everywhere (h : ∀ x ∈ xs, x.Everywhere P) : (mergeAll xs).Everywhere P :=
  foldl_merge_everywhere hP
    (Json.everywhere_obj.mpr ⟨hP.nil, fun _ hm => absurd hm List.not_mem_nil⟩) h

include hP in
theorem collapseAllOf_everywhere (h : v.Everywhere P) : (collapseAllOf v).Everywhere P := by
  have hcollapsed := collapsed v
  generalize collapseAllOf v = w at hcollapsed
  cases hcollapsed with
  | kept => exact h
  | alone he hparts =>
      subst he
      exact mergeAll_everywhere hP (Json.everywhere_arr.mp (h.member hparts))
  | beside he hparts =>
      subst he
      exact merge_everywhere hP (mergeAll_everywhere hP (Json.everywhere_arr.mp (h.member hparts)))
        (swapErase_everywhere hP h "allOf")

include hP in
theorem moveRequired_everywhere (h : v.Everywhere P) : (moveRequired v).Everywhere P := by
  rcases moveRequired_cases v with he | ⟨members, names, key, items, rfl, hmoves⟩
  · rwa [he]
  · rw [moveRequired_moves hmoves]
    have hitems : (Json.obj (Table.insert items "required" (.arr names))).Everywhere P := by
      obtain ⟨hself, hbelow⟩ := Json.everywhere_obj.mp (h.member hmoves.target)
      refine Json.everywhere_obj.mpr ⟨hP.required _ hself, fun entry hm => ?_⟩
      rcases Table.mem_insert hm with rfl | hm
      · exact h.member hmoves.required
      · exact hbelow entry hm
    refine insert_everywhere hP (swapErase_everywhere hP h "required") h ?_ hitems
    exact Table.mem_names.mpr ⟨_, Table.mem_of_get? hmoves.target⟩

end Kept

/-! ## Distinct names -/

theorem hereditary_nodup : Hereditary fun members => (Table.names members).Nodup where
  nil := List.nodup_nil
  single _ := List.nodup_singleton _
  insert v h _ _ := Table.nodup_insert h _ v
  required v h := Table.nodup_insert h _ v
  erase key h := Table.nodup_swapErase h key

theorem combine_distinct (ha : a.Distinct) (hb : b.Distinct) : (combine a b).Distinct :=
  Json.distinct_iff.mpr
    (combine_everywhere hereditary_nodup (Json.distinct_iff.mp ha) (Json.distinct_iff.mp hb))

theorem sides_distinct (ha : (Json.obj first).Distinct) (hb : (Json.obj second).Distinct) :
    (Json.obj (sides first second).1).Distinct ∧ (Json.obj (sides first second).2).Distinct := by
  rw [Json.distinct_iff] at ha hb
  rw [Json.distinct_iff, Json.distinct_iff]
  exact sides_everywhere hereditary_nodup (merges_keep hereditary_nodup _) (Nat.le_refl _) ha hb

theorem merge_distinct (ha : a.Distinct) (hb : b.Distinct) : (merge a b).Distinct :=
  Json.distinct_iff.mpr
    (merge_everywhere hereditary_nodup (Json.distinct_iff.mp ha) (Json.distinct_iff.mp hb))

theorem swapErase_distinct {members : Members} (h : (Json.obj members).Distinct) (key : String) :
    (Json.obj (Table.swapErase members key)).Distinct :=
  Json.distinct_iff.mpr (swapErase_everywhere hereditary_nodup (Json.distinct_iff.mp h) key)

theorem collapseAllOf_distinct (h : v.Distinct) : (collapseAllOf v).Distinct :=
  Json.distinct_iff.mpr (collapseAllOf_everywhere hereditary_nodup (Json.distinct_iff.mp h))

theorem moveRequired_distinct (h : v.Distinct) : (moveRequired v).Distinct :=
  Json.distinct_iff.mpr (moveRequired_everywhere hereditary_nodup (Json.distinct_iff.mp h))

theorem foldl_merge_distinct (ha : a.Distinct) (h : ∀ x ∈ xs, x.Distinct) :
    (xs.foldl merge a).Distinct :=
  Json.distinct_iff.mpr (foldl_merge_everywhere hereditary_nodup (Json.distinct_iff.mp ha)
    fun x hx => Json.distinct_iff.mp (h x hx))

theorem mergeAll_distinct (h : ∀ x ∈ xs, x.Distinct) : (mergeAll xs).Distinct :=
  Json.distinct_iff.mpr
    (mergeAll_everywhere hereditary_nodup fun x hx => Json.distinct_iff.mp (h x hx))

end Schema

end SchemaForm
