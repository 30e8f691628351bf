/-
Merging keeps references anchored.

    Settled P a → Settled P b → Settled P (merge a b)

for the same places `P`, and with it for `mergeAll`, `collapseAllOf` and
`moveRequired`: an expanded schema is merged from schemas that were expanded for
one place.
-/
import SchemaForm.Proofs.Reference.Anchored
import SchemaForm.Proofs.Schema.Combining

namespace SchemaForm

namespace Schema

variable {P : Places} {role : Role} {key : String} {a b v : Json}

/-! ## Putting two schemas side by side -/

theorem settled_sideBySide (ha : Settled P a) (hb : Settled P b) : Settled P (sideBySide a b) := by
  refine settled_schema.mpr ⟨List.nodup_singleton _, ?_⟩
  intro key v hm
  obtain ⟨rfl, rfl⟩ := Prod.mk.inj (List.mem_singleton.mp hm)
  refine held_list rfl (by decide) ?_
  intro x hx
  have hspread : ∀ q, P q → P.spread "allOf" q := fun _ hq => hq
  rcases List.mem_cons.mp hx with rfl | hx
  · exact ha.mono hspread
  · exact List.mem_singleton.mp hx ▸ hb.mono hspread

/-! ## Values of single keywords -/

theorem typeList?_settled {names : List Json} (ha : Held P "type" a)
    (h : typeList? a = some names) : ∀ x ∈ names, Settled (P.spread "type") x := by
  unfold typeList? at h
  split at h
  · obtain rfl := Option.some.inj h
    intro x hx
    rw [List.mem_singleton.mp hx]
    exact settled_scalar rfl rfl
  · obtain rfl := Option.some.inj h
    exact ha.items (by decide) _ rfl
  · exact absurd h (Option.some_ne_none names).symm

/-- A common type name is a text when one of the sides is a single one. -/
theorem isStr_of_common {names others : List Json} {x : Json} (hn : typeList? a = some names)
    (ho : typeList? b = some others) (hs : a.isStr = true ∨ b.isStr = true)
    (hx : x ∈ names.filter others.contains) : ∃ name, x = .str name := by
  obtain ⟨hmem, hcontains⟩ := List.mem_filter.mp hx
  cases hs with
  | inl hs =>
      cases a with
      | str name =>
          obtain rfl := Option.some.inj hn
          exact ⟨name, List.mem_singleton.mp hmem⟩
      | _ => cases hs
  | inr hs =>
      cases b with
      | str name =>
          obtain rfl := Option.some.inj ho
          have hsame : x.same (.str name) = true := by simpa [Json.beq_def] using hcontains
          cases x with
          | str text => exact ⟨text, rfl⟩
          | _ => cases hsame
      | _ => cases hs

theorem held_intersectTypes (ha : Held P "type" a) (h : intersectTypes? a b = some v) :
    Held P "type" v := by
  obtain ⟨names, hn, h⟩ := Option.bind_eq_some_iff.mp h
  obtain ⟨others, ho, h⟩ := Option.bind_eq_some_iff.mp h
  have hlist : ∀ {items}, items ⊆ names → Held P "type" (.arr items) := fun hsub =>
    held_list ha.keyword (by decide) fun x hx => typeList?_settled ha hn x (hsub hx)
  have hcommon : names.filter others.contains ⊆ names := List.filter_subset_self _
  split at h
  · next name hone =>
      obtain rfl := Option.some.inj h
      split
      · next hs =>
          obtain ⟨text, rfl⟩ := isStr_of_common hn ho (Bool.or_eq_true_iff.mp hs)
            (hone ▸ List.mem_cons_self)
          exact held_scalar ha.keyword (by decide) rfl rfl
      · exact hlist (hone ▸ hcommon)
  · obtain rfl := Option.some.inj h
    exact hlist hcommon

theorem held_union {xs ys : List Json} (ha : Held P key (.arr xs)) (hb : Held P key (.arr ys))
    (hk : demandKeywords.contains key = true) : Held P key (.arr (union xs ys)) := by
  have hkeys : key = "allOf" ∨ key = "required" := by simpa [demandKeywords] using hk
  rcases hkeys with rfl | rfl
  · have hlist : "allOf" ∈ listKeywords := by decide
    refine held_list ha.keyword hlist ?_
    intro x hx
    cases List.mem_append.mp hx with
    | inl hx => exact ha.items hlist xs rfl x hx
    | inr hx => exact hb.items hlist ys rfl x (List.mem_filter.mp hx).1
  · exact held_data ha.keyword rfl

theorem held_combineLimit (ha : Held P key a) (hb : Held P key b)
    (h : combineLimit? key a b = some v) : Held P key v := by
  have hnone : ¬(none : Option Json) = some v := (Option.some_ne_none v).symm
  have hside : v = a ∨ v = b → Held P key v := by
    rintro (rfl | rfl)
    · exact ha
    · exact hb
  unfold combineLimit? at h
  split at h
  · next hk =>
      subst hk
      exact held_intersectTypes ha h
  split at h
  · next hk =>
      split at h
      · obtain rfl := Option.some.inj h
        exact held_union ha hb hk
      · exact absurd h hnone
  split at h
  · next hk =>
      split at h
      · obtain rfl := Option.some.inj h
        exact held_scalar ha.keyword (by rw [hk]; decide) rfl rfl
      · exact absurd h hnone
  split at h
  · next hk =>
      obtain rfl := Option.some.inj h
      exact held_scalar ha.keyword (by rw [hk]; decide) rfl rfl
  split at h
  · exact hside (tighter?_cases h)
  split at h
  · exact hside (tighter?_cases h)
  · exact absurd h hnone

/-! ## Combining -/

/-- `combine` keeps schemas settled that together are no larger than the number. -/
def Combines (n : Nat) : Prop :=
  ∀ {P : Places} {a b : Json}, a.size + b.size ≤ n → Settled P a → Settled P b →
    Settled P (combine a b)

theorem combineEach_settled {n : Nat} (ih : Combines n) {other : Json} (ho : Settled P other)
    (xs : List Json) (hn : Json.sizeItems xs + other.size ≤ n) (hxs : ∀ x ∈ xs, Settled P x) :
    ∀ y ∈ combineEach other xs, Settled P y := by
  induction xs with
  | nil =>
      rw [combineEach]
      exact fun y hy => absurd hy List.not_mem_nil
  | cons x xs ihxs =>
      rw [combineEach]
      rw [Json.sizeItems] at hn
      intro y hy
      rcases List.mem_cons.mp hy with rfl | hy
      · exact ih (by omega) (hxs x List.mem_cons_self) ho
      · exact ihxs (by omega) (fun z hz => hxs z (List.mem_cons_of_mem _ hz)) y hy

theorem settled_of_held (hk : key ∈ listKeywords) {members : Members}
    (h : Held P key (.obj members)) : Settled (P.below key) (.obj members) :=
  ⟨h.other .schema (ofKeyword?_list hk) fun _ => rfl, plain_of_arr? rfl⟩

theorem held_combineKeyword {n : Nat} (ih : Combines n) (hn : a.size + b.size ≤ n)
    (ha : Held P key a) (hb : Held P key b) (h : combineKeyword key a b = some v) :
    Held P key v := by
  unfold combineKeyword at h
  split at h
  · next hk =>
      have hkeys : key = "enum" ∨ key ∈ listKeywords ∧ key ≠ "allOf" ∧ key ≠ "$ref" := by
        simp only [alternativeKeywords, List.contains_iff_mem, List.mem_cons, List.not_mem_nil,
          or_false] at hk
        rcases hk with rfl | rfl | rfl | rfl <;> decide
      rcases hkeys with rfl | ⟨hlist, hall, href⟩
      · exact held_data ha.keyword rfl
      have hspread : ∀ {members}, Held P key (.obj members) →
          Settled (P.spread key) (.obj members) := fun ho =>
        (settled_of_held hlist ho).mono (Places.below_spread hall)
      split at h
      · next xs ys =>
          obtain rfl := Option.some.inj h
          exact held_list ha.keyword hlist fun x hx =>
            ha.items hlist xs rfl x (List.mem_filter.mp hx).1
      · next first second =>
          obtain rfl := Option.some.inj h
          have hboth := ih hn (settled_of_held hlist ha) (settled_of_held hlist hb)
          exact held_of_plain ha.keyword (ofKeyword?_list hlist) hboth.plain href hall
            hboth.anchored
      · next xs second =>
          obtain rfl := Option.some.inj h
          rw [Json.size] at hn
          exact held_list ha.keyword hlist (combineEach_settled ih (hspread hb) xs (by omega)
            (ha.items hlist xs rfl))
      · next first ys =>
          obtain rfl := Option.some.inj h
          rw [show Json.size (.arr ys) = 1 + Json.sizeItems ys from rfl] at hn
          exact held_list ha.keyword hlist (combineEach_settled ih (hspread ha) ys (by omega)
            (hb.items hlist ys rfl))
      · exact absurd h (Option.some_ne_none v).symm
  · exact held_combineLimit ha hb h

theorem settled_insert {members : Members} (h : Settled P (.obj members)) (hv : Held P key v) :
    Settled P (.obj (Table.insert members key v)) := by
  obtain ⟨hn, hheld⟩ := settled_schema.mp h
  refine settled_schema.mpr ⟨Table.nodup_insert hn key v, ?_⟩
  intro k w hm
  cases Table.mem_insert hm with
  | inl he =>
      obtain ⟨rfl, rfl⟩ := Prod.mk.inj he
      exact hv
  | inr hm => exact hheld k w hm

theorem settled_swapErase {members : Members} (h : Settled P (.obj members)) (key : String) :
    Settled P (.obj (Table.swapErase members key)) := by
  obtain ⟨hn, hheld⟩ := settled_schema.mp h
  exact settled_schema.mpr
    ⟨Table.nodup_swapErase hn key, fun k w hm => hheld k w (Table.mem_swapErase hm)⟩

theorem held_of_get? {members : Members} (h : Settled P (.obj members))
    (hg : Table.get? members key = some v) : Held P key v :=
  (settled_schema.mp h).2 key v (Table.mem_of_get? hg)

theorem combineMembers_settled {n : Nat} (ih : Combines n) {first acc made : Members}
    (hfirst : Settled P (.obj first)) (hacc : Settled P (.obj acc))
    (second : List (String × Json))
    (hn : Json.sizeMembers first + Json.sizeMembers second ≤ n)
    (hsecond : ∀ key v, (key, v) ∈ second → Held P key v)
    (h : combineMembers first acc second = some made) : Settled P (.obj made) := by
  induction second generalizing acc with
  | nil =>
      rw [combineMembers] at h
      exact Option.some.inj h ▸ hacc
  | cons entry rest ihrest =>
      obtain ⟨key, value⟩ := entry
      rw [Json.sizeMembers] at hn
      have hrest : ∀ key v, (key, v) ∈ rest → Held P key v := fun key v hm =>
        hsecond key v (List.mem_cons_of_mem _ hm)
      have hvalue := hsecond key value List.mem_cons_self
      rw [combineMembers] at h
      split at h
      · exact ihrest (settled_insert hacc hvalue) (by omega) hrest h
      · next old hold =>
          split at h
          · exact ihrest hacc (by omega) hrest h
          · split at h
            · next both hboth =>
                have hsize := Json.size_le_of_get? hold
                have hheld := held_combineKeyword ih (by omega) (held_of_get? hfirst hold) hvalue
                  hboth
                exact ihrest (settled_insert hacc hheld) (by omega) hrest h
            · exact absurd h (Option.some_ne_none made).symm

theorem combines (n : Nat) : Combines n := by
  induction n using Nat.strongRecOn with
  | ind n ih =>
      intro P a b hn ha hb
      unfold combine
      split
      · exact hb
      split
      · exact ha
      split
      · next first second _ _ =>
          simp only [Json.size] at hn
          split
          · next members hmembers =>
              exact combineMembers_settled (ih (n - 1) (by omega)) ha ha second (by omega)
                (settled_schema.mp hb).2 hmembers
          · exact settled_sideBySide ha hb
      · exact settled_sideBySide ha hb

theorem combine_settled (ha : Settled P a) (hb : Settled P b) : Settled P (combine a b) :=
  combines _ (Nat.le_refl _) ha hb

/-! ## Merging -/

/-- Both schemas are settled. -/
def Sides (P : Places) (sides : Members × Members) : Prop :=
  Settled P (.obj sides.1) ∧ Settled P (.obj sides.2)

theorem sides_settle {sides : Members × Members} {value : Option Json} (h : Sides P sides)
    (hv : ∀ v, value = some v → Held P key v) : Sides P (settle key value sides) := by
  cases value with
  | none => exact h
  | some v => exact ⟨settled_insert h.1 (hv v rfl), settled_swapErase h.2 key⟩

/-- `merge` keeps schemas settled of which the second is no larger than the number. -/
def Merges (n : Nat) : Prop :=
  ∀ {P : Places} {a b : Json}, b.size ≤ n → Settled P a → Settled P b → Settled P (merge a b)

theorem mergeEntries_anchored {n : Nat} (ih : Merges n) {left acc : Members}
    (hleft : Anchored P .map (.obj left)) (hacc : Anchored P .map (.obj acc))
    (right : List (String × Json)) (hn : Json.sizeMembers right ≤ n)
    (hright : ∀ name v, (name, v) ∈ right → Settled (P.below name) v) :
    Anchored P .map (.obj (mergeEntries left acc right)) := by
  induction right generalizing acc with
  | nil =>
      rw [mergeEntries]
      exact hacc
  | cons entry rest ihrest =>
      obtain ⟨name, value⟩ := entry
      rw [Json.sizeMembers] at hn
      have hvalue := hright name value List.mem_cons_self
      rw [mergeEntries]
      refine ihrest ?_ (by omega) fun name v hm => hright name v (List.mem_cons_of_mem _ hm)
      obtain ⟨hnodup, hentries⟩ := anchored_map.mp hacc
      refine anchored_map.mpr ⟨Table.nodup_insert hnodup _ _, ?_⟩
      intro other v hm
      cases Table.mem_insert hm with
      | inl he =>
          obtain ⟨rfl, rfl⟩ := Prod.mk.inj he
          split
          · next old hold =>
              have hold := (anchored_map.mp hleft).2 other old (Table.mem_of_get? hold)
              exact ih (by omega) hold hvalue
          · exact hvalue
      | inr hm => exact hentries other v hm

theorem held_mergeMap {n : Nat} (ih : Merges n) {first second : Members}
    (hkey : key ∈ mergedMaps) (hn : Json.sizeMembers second ≤ n)
    (hfirst : Settled P (.obj first)) (hsecond : Settled P (.obj second))
    (h : mergeMap? key first second = some v) : Held P key v := by
  unfold mergeMap? at h
  split at h
  · next left right hl hr =>
      obtain rfl := Option.some.inj h
      have hkeys : Role.ofKeyword? key = some .map ∧ key ≠ "$ref" ∧ key ≠ "allOf" ∧
          key ∉ listKeywords := by
        simp only [mergedMaps, List.mem_cons, List.not_mem_nil, or_false] at hkey
        rcases hkey with rfl | rfl | rfl <;> decide
      obtain ⟨hrole, href, hall, hlist⟩ := hkeys
      have hmap : ∀ {members entries}, Settled P (.obj members) →
          Table.get? members key = some (.obj entries) →
            Anchored (P.below key) .map (.obj entries) := fun hm hg =>
        (held_of_get? hm hg).other .map hrole fun hl => absurd hl hlist
      have hsize := Json.size_le_of_get? hr
      rw [Json.size] at hsize
      exact held_of_plain (held_of_get? hfirst hl).keyword hrole (plain_of_arr? rfl) href hall
        (mergeEntries_anchored ih (hmap hfirst hl) (hmap hfirst hl) right (by omega)
          (anchored_map.mp (hmap hsecond hr)).2)
  · exact absurd h (Option.some_ne_none v).symm

theorem held_mergeItems {n : Nat} (ih : Merges n) {first second : Members}
    (hn : Json.sizeMembers second ≤ n) (hfirst : Settled P (.obj first))
    (hsecond : Settled P (.obj second)) (h : mergeItems? first second = some v) :
    Held P "items" v := by
  unfold mergeItems? at h
  split at h
  · next left right hl hr =>
      obtain rfl := Option.some.inj h
      have hitems : ∀ {members items}, Settled P (.obj members) →
          Table.get? members "items" = some (.obj items) →
            Settled (P.below "items") (.obj items) := fun hm hg =>
        ⟨(held_of_get? hm hg).other .schema rfl fun hl => absurd hl (by decide),
          plain_of_arr? rfl⟩
      have hsize := Json.size_le_of_get? hr
      have hboth := ih (by omega) (hitems hfirst hl) (hitems hsecond hr)
      exact held_of_plain rfl rfl hboth.plain (by decide) (by decide) hboth.anchored
  · exact absurd h (Option.some_ne_none v).symm

theorem merges (n : Nat) : Merges n := by
  induction n with
  | zero =>
      intro P a b hn
      have := Json.size_pos b
      omega
  | succ n ih =>
      intro P a b hn ha hb
      unfold merge
      split
      · next first second =>
          have hsize : Json.sizeMembers second ≤ n := by
            rw [Json.size] at hn
            omega
          have hmap : ∀ {key}, key ∈ mergedMaps → ∀ v, mergeMap? key first second = some v →
              Held P key v := fun hk v hv => held_mergeMap ih hk hsize ha hb hv
          have hgiven : Sides P (first, second) := ⟨ha, hb⟩
          have hproperties := sides_settle hgiven
            (hmap (show "properties" ∈ mergedMaps by decide))
          have hpatterns := sides_settle hproperties
            (hmap (show "patternProperties" ∈ mergedMaps by decide))
          have hdefinitions := sides_settle hpatterns
            (hmap (show "definitions" ∈ mergedMaps by decide))
          have hitems := sides_settle hdefinitions
            fun v hv => held_mergeItems ih hsize ha hb hv
          exact combine_settled hitems.1 hitems.2
      · exact combine_settled ha hb

theorem merge_settled (ha : Settled P a) (hb : Settled P b) : Settled P (merge a b) :=
  merges _ (Nat.le_refl _) ha hb

theorem mergeAll_settled {schemas : List Json} (h : ∀ x ∈ schemas, Settled P x) :
    Settled P (mergeAll schemas) := by
  have hfold : ∀ {acc}, Settled P acc → Settled P (schemas.foldl merge acc) := by
    induction schemas with
    | nil => exact fun hacc => hacc
    | cons x xs ih =>
        intro acc hacc
        exact ih (fun y hy => h y (List.mem_cons_of_mem _ hy))
          (merge_settled hacc (h x List.mem_cons_self))
  exact hfold settled_empty

theorem collapseAllOf_settled (h : Settled P v) : Settled P (collapseAllOf v) := by
  have hmerged : ∀ {members parts}, v = .obj members →
      Table.get? members "allOf" = some (.arr parts) → Settled P (mergeAll parts) := by
    rintro members parts rfl hparts
    exact mergeAll_settled fun x hx => (held_of_get? h hparts).items (by decide) parts rfl x hx
  have hcollapsed := collapsed v
  generalize collapseAllOf v = w at hcollapsed
  cases hcollapsed with
  | kept => exact h
  | alone he hparts => exact hmerged he hparts
  | beside he hparts =>
      exact merge_settled (hmerged he hparts) (settled_swapErase (he ▸ h) "allOf")

theorem moveRequired_settled (h : Settled P v) : Settled P (moveRequired v) := by
  rcases moveRequired_cases v with he | ⟨members, names, key, items, rfl, hmoves⟩
  · rwa [he]
  · rw [moveRequired_moves hmoves]
    have hrole : Role.ofKeyword? key = some .schema ∧ key ∉ listKeywords ∧
        key ≠ "$ref" ∧ key ≠ "allOf" := by
      rcases hmoves.keyword with rfl | rfl <;> decide
    have hfound := held_of_get? h hmoves.target
    have hitems : Settled (P.below key) (.obj items) :=
      ⟨hfound.other .schema hrole.1 fun hl => absurd hl hrole.2.1, plain_of_arr? rfl⟩
    have hmoved : Settled (P.below key) (.obj (Table.insert items "required" (.arr names))) :=
      settled_insert hitems (held_data rfl rfl)
    exact settled_insert (settled_swapErase h "required")
      (held_of_plain hfound.keyword hrole.1 hmoved.plain hrole.2.2.1 hrole.2.2.2 hmoved.anchored)

end Schema

end SchemaForm
