/-
What schemas weigh.

The weight of a schema is the number of its keywords, where an `allOf` list counts for the
schemas in it.  Combining and merging make no schema heavier than the two are together
(`weight_combine_le`, `weight_merge_le`), and where they are not made lighter either nothing
was made one: the two stand side by side, or what each of them has is in the merged one
(`merge_tight`).  Nor does finishing make a schema heavier (`weight_collapseAllOf_le`,
`weight_moveRequired`).
-/
import Mathlib.Algebra.BigOperators.Group.Finset.Piecewise
import Mathlib.Algebra.Order.BigOperators.Group.Finset
import SchemaForm.Proofs.Schema.Keeping

namespace SchemaForm

namespace Schema

mutual

/-- The number of keywords, where an `allOf` list counts for its schemas. -/
def weight : Json → Nat
  | .null => 0
  | .arr items => if items.isEmpty then 0 else 1 + weightItems items
  | .obj members => weightMembers members
  | _ => 1

def weightItems : List Json → Nat
  | [] => 0
  | x :: xs => weight x + weightItems xs

def weightMembers : List (String × Json) → Nat
  | [] => 0
  | (key, .arr items) :: rest =>
      (if key = "allOf" then weightItems items else 1) + weightMembers rest
  | (key, value) :: rest => (if key = "allOf" then 1 + weight value else 1) + weightMembers rest

end

/-- What a keyword weighs. -/
def keyWeight (key : String) : Option Json → Nat
  | none => 0
  | some (.arr items) => if key = "allOf" then weightItems items else 1
  | some value => if key = "allOf" then 1 + weight value else 1

variable {a b v w : Json} {key : String} {first second made members ns : Members}
  {xs ys parts : List Json}

theorem weightItems_append (xs ys : List Json) :
    weightItems (xs ++ ys) = weightItems xs + weightItems ys := by
  induction xs with
  | nil => simp [weightItems]
  | cons x xs ih => simp [weightItems, ih, Nat.add_assoc]

theorem weightItems_le (xs : List Json) : weightItems xs ≤ weight (.arr xs) := by
  cases xs with
  | nil => exact Nat.le_refl 0
  | cons x xs => exact Nat.le_add_left _ 1

/-- Lists of which none or both are empty weigh as the schemas in them do. -/
theorem weightItems_le_iff (h : xs.isEmpty = ys.isEmpty) :
    weightItems xs ≤ weightItems ys ↔ weight (.arr xs) ≤ weight (.arr ys) := by
  cases xs with
  | nil =>
      rw [weight, List.isEmpty_nil, if_pos rfl]
      exact ⟨fun _ => Nat.zero_le _, fun _ => Nat.zero_le _⟩
  | cons x xs =>
      cases ys with
      | nil => cases h
      | cons y ys => exact Nat.add_le_add_iff_left.symm

theorem length_le_weightItems (h : ∀ x ∈ xs, 1 ≤ weight x) : xs.length ≤ weightItems xs := by
  induction xs with
  | nil => exact Nat.le_refl 0
  | cons x xs ih =>
      rw [List.forall_mem_cons] at h
      rw [List.length_cons, weightItems]
      have := ih h.2
      omega

theorem keyWeight_of_ne (h : key ≠ "allOf") (v : Json) : keyWeight key (some v) = 1 := by
  cases v <;> simp [keyWeight, h]

theorem keyWeight_le_one (h : "allOf" ≠ key) (u : Option Json) : keyWeight key u ≤ 1 := by
  cases u with
  | none => exact Nat.zero_le 1
  | some v => exact Nat.le_of_eq (keyWeight_of_ne (Ne.symm h) v)

theorem eq_none_of_keyWeight {u : Option Json} (h : "allOf" ≠ key) (hzero : keyWeight key u = 0) :
    u = none := by
  cases u with
  | none => rfl
  | some v => exact absurd ((keyWeight_of_ne (Ne.symm h) v).symm.trans hzero) Nat.one_ne_zero

theorem keyWeight_allOf_le (v : Json) : keyWeight "allOf" (some v) ≤ 1 + weight v := by
  cases v with
  | arr items => exact Nat.le_trans (weightItems_le items) (Nat.le_add_left _ 1)
  | _ => exact Nat.le_refl _

theorem weightMembers_cons (key : String) (v : Json) (rest : Members) :
    weightMembers ((key, v) :: rest) = keyWeight key (some v) + weightMembers rest := by
  cases v <;> rfl

/-- The weight of an object is that of its keywords. -/
theorem weight_obj (hn : (Table.names members).Nodup) {S : Finset String}
    (hS : ∀ key ∈ Table.names members, key ∈ S) :
    weight (.obj members) = ∑ key ∈ S, keyWeight key (Table.get? members key) := by
  rw [weight]
  induction members with
  | nil => simp [weightMembers, keyWeight]
  | cons entry rest ih =>
      obtain ⟨name, v⟩ := entry
      obtain ⟨hnot, hrest⟩ := List.nodup_cons.mp hn
      have hsplit : ∀ key, keyWeight key (Table.get? ((name, v) :: rest) key) =
          (if name = key then keyWeight name (some v) else 0) +
            keyWeight key (Table.get? rest key) := by
        intro key
        rw [Table.get?_cons]
        split
        · next he => rw [← he, Table.get?_eq_none_iff.mpr hnot, keyWeight.eq_1, Nat.add_zero]
        · rw [Nat.zero_add]
      simp only [hsplit, Finset.sum_add_distrib, Finset.sum_ite_eq]
      rw [if_pos (hS name List.mem_cons_self), weightMembers_cons,
        ih hrest fun key hkey => hS key (List.mem_cons_of_mem _ hkey)]

/-- The names of two objects. -/
def bothNames (first second : Members) : Finset String :=
  (Table.names first ++ Table.names second).toFinset

theorem mem_bothNames :
    key ∈ bothNames first second ↔ key ∈ Table.names first ∨ key ∈ Table.names second := by
  simp [bothNames]

theorem weight_left (ha : (Json.obj first).Distinct) (second : Members) :
    weight (.obj first) = ∑ key ∈ bothNames first second, keyWeight key (Table.get? first key) :=
  weight_obj ha.1 fun _ hkey => mem_bothNames.mpr (.inl hkey)

theorem weight_right (first : Members) (hb : (Json.obj second).Distinct) :
    weight (.obj second) = ∑ key ∈ bothNames first second, keyWeight key (Table.get? second key) :=
  weight_obj hb.1 fun _ hkey => mem_bothNames.mpr (.inr hkey)

/-! ## Combining -/

theorem weight_sideBySide (a b : Json) : weight (sideBySide a b) = weight a + weight b := by
  simp [sideBySide, weight, weightMembers, weightItems]

theorem weightItems_filter_le (p : Json → Bool) (xs : List Json) :
    weightItems (xs.filter p) ≤ weightItems xs := by
  induction xs with
  | nil => exact Nat.le_refl 0
  | cons x xs ih =>
      rw [List.filter_cons]
      split <;> simp only [weightItems] <;> omega

theorem keyWeight_blend_le (key : String) (u w : Option Json) :
    keyWeight key (blend key u w) ≤ keyWeight key u + keyWeight key w := by
  cases u with
  | none => cases w <;> simp [blend, keyWeight]
  | some old =>
      cases w with
      | none => exact Nat.le_add_right _ _
      | some value =>
          rw [blend, both?]
          split
          · exact Nat.le_add_right _ _
          · by_cases hkey : key = "allOf"
            · subst hkey
              cases hboth : combineKeyword "allOf" old value with
              | none => exact Nat.zero_le _
              | some both =>
                  obtain ⟨xs, ys, rfl, rfl, rfl⟩ := (combineKeyword_demand (by decide)).mp hboth
                  simp only [keyWeight, if_true, union, weightItems_append]
                  exact Nat.add_le_add_left (weightItems_filter_le _ ys) _
            · rw [keyWeight_of_ne hkey, keyWeight_of_ne hkey]
              cases combineKeyword key old value with
              | none => exact Nat.zero_le _
              | some both =>
                  rw [keyWeight_of_ne hkey]
                  exact Nat.le_add_right 1 1

theorem mem_bothNames_of_blend
    (h : ∀ key, Table.get? made key = blend key (Table.get? first key) (Table.get? second key)) :
    ∀ key ∈ Table.names made, key ∈ bothNames first second := by
  intro key hkey
  rw [mem_bothNames, ← Table.get?_isSome_iff, ← Table.get?_isSome_iff]
  rw [← Table.get?_isSome_iff, h key] at hkey
  cases hf : Table.get? first key with
  | some v => exact .inl rfl
  | none =>
      rw [hf] at hkey
      exact .inr hkey

theorem weight_blended (hmade : (Json.obj made).Distinct)
    (h : ∀ key, Table.get? made key = blend key (Table.get? first key) (Table.get? second key)) :
    weight (.obj made) = ∑ key ∈ bothNames first second,
      keyWeight key (blend key (Table.get? first key) (Table.get? second key)) := by
  rw [weight_obj hmade.1 (mem_bothNames_of_blend h)]
  exact Finset.sum_congr rfl fun key _ => by rw [h key]

/-- A combined schema is no heavier than the two together. -/
theorem weight_combine_le (ha : a.Distinct) (hb : b.Distinct) :
    weight (combine a b) ≤ weight a + weight b := by
  have hjoined := combine_joined (a := a) hb
  have hdistinct := combine_distinct ha hb
  generalize combine a b = both at hjoined hdistinct
  cases hjoined with
  | right => exact Nat.le_add_left _ _
  | left => exact Nat.le_add_right _ _
  | apart => exact Nat.le_of_eq (weight_sideBySide a b)
  | @blended first second made hea heb _ _ hmade _ =>
      subst hea heb
      rw [weight_blended hdistinct hmade, weight_left ha second, weight_right first hb,
        ← Finset.sum_add_distrib]
      exact Finset.sum_le_sum fun key _ => keyWeight_blend_le key _ _

/-! ## Merging -/

theorem keyWeight_sides (hb : (Json.obj second).Distinct) (key : String) :
    keyWeight key (Table.get? (sides first second).1 key) +
        keyWeight key (Table.get? (sides first second).2 key) +
        (if (joint? first second key).isSome then 1 else 0) =
      keyWeight key (Table.get? first key) + keyWeight key (Table.get? second key) := by
  rw [get?_sides_left, get?_sides_right hb.1]
  cases hjoint : joint? first second key with
  | none => simp
  | some v =>
      obtain ⟨left, right, hl, hr, hv⟩ := joint?_eq_some.mp hjoint
      have hkey : key ≠ "allOf" := by
        rcases hv with ⟨rfl, -⟩ | ⟨hmem, -⟩
        · decide
        · rintro rfl
          exact absurd hmem (by decide)
      rw [hl, hr, Option.some_or, keyWeight_of_ne hkey, keyWeight_of_ne hkey, keyWeight_of_ne hkey]
      rfl

theorem mem_bothNames_sides (first : Members) (hb : (Json.obj second).Distinct) :
    (∀ key ∈ Table.names (sides first second).1, key ∈ bothNames first second) ∧
      ∀ key ∈ Table.names (sides first second).2, key ∈ bothNames first second := by
  constructor
  · intro key hkey
    rw [← Table.get?_isSome_iff, get?_sides_left] at hkey
    rw [mem_bothNames, ← Table.get?_isSome_iff]
    cases hjoint : joint? first second key with
    | none =>
        rw [hjoint, Option.none_or] at hkey
        exact .inl hkey
    | some v =>
        obtain ⟨left, right, hl, -⟩ := joint?_eq_some.mp hjoint
        exact .inl (by rw [hl]; rfl)
  · intro key hkey
    rw [← Table.get?_isSome_iff, get?_sides_right hb.1] at hkey
    rw [mem_bothNames, ← Table.get?_isSome_iff, ← Table.get?_isSome_iff]
    split at hkey
    · cases hkey
    · exact .inr hkey

/-- What merging hands on is lighter by what it has merged. -/
theorem weight_sides (ha : (Json.obj first).Distinct) (hb : (Json.obj second).Distinct) :
    weight (.obj (sides first second).1) + weight (.obj (sides first second).2) +
        ∑ key ∈ bothNames first second, (if (joint? first second key).isSome then 1 else 0) =
      weight (.obj first) + weight (.obj second) := by
  obtain ⟨hleft, hright⟩ := sides_distinct ha hb
  obtain ⟨hl, hr⟩ := mem_bothNames_sides first hb
  rw [weight_obj hleft.1 hl, weight_obj hright.1 hr, weight_left ha second, weight_right first hb,
    ← Finset.sum_add_distrib, ← Finset.sum_add_distrib, ← Finset.sum_add_distrib]
  exact Finset.sum_congr rfl fun key _ => keyWeight_sides hb key

/-- A merged schema is no heavier than the two together. -/
theorem weight_merge_le (ha : a.Distinct) (hb : b.Distinct) :
    weight (merge a b) ≤ weight a + weight b := by
  rcases merge_cases a b with ⟨-, hmerge⟩ | ⟨first, second, rfl, rfl, hmerge⟩
  · rw [hmerge]
    exact weight_combine_le ha hb
  · obtain ⟨hleft, hright⟩ := sides_distinct ha hb
    rw [hmerge, ← weight_sides ha hb]
    exact Nat.le_trans (weight_combine_le hleft hright) (Nat.le_add_right _ _)

/-- What is merged under a name makes two schemas lighter. -/
theorem unjoined_of_weight (ha : a.Distinct) (hb : b.Distinct)
    (h : weight (merge a b) = weight a + weight b) : Unjoined a b := by
  rcases merge_cases a b with ⟨hunjoined, -⟩ | ⟨first, second, rfl, rfl, hmerge⟩
  · exact hunjoined
  · obtain ⟨hleft, hright⟩ := sides_distinct ha hb
    have hsum := weight_sides ha hb
    have hle := weight_combine_le hleft hright
    rw [hmerge] at h
    have hzero : ∑ key ∈ bothNames first second,
        (if (joint? first second key).isSome then 1 else 0) = 0 := by omega
    rintro _ _ ⟨⟩ ⟨⟩ key
    cases hjoint : joint? first second key with
    | none => rfl
    | some v =>
        obtain ⟨left, right, hl, -⟩ := joint?_eq_some.mp hjoint
        have hkey : key ∈ bothNames first second := by
          rw [mem_bothNames, ← Table.get?_isSome_iff, hl]
          exact .inl rfl
        have hone := Finset.sum_eq_zero_iff.mp hzero key hkey
        rw [hjoint] at hone
        cases hone

/-- Two schemas that merge to one as heavy as both stand side by side, or have nothing in
common that weighs. -/
theorem merge_tight (ha : a.Distinct) (hb : b.Distinct) (hae : a.isEmpty = false)
    (hbe : b.isEmpty = false) (h : weight (merge a b) = weight a + weight b) :
    merge a b = sideBySide a b ∨ ∃ first second made, a = .obj first ∧ b = .obj second ∧
      merge a b = .obj made ∧ ∀ key,
        Table.get? made key = blend key (Table.get? first key) (Table.get? second key) ∧
        keyWeight key (Table.get? made key) =
          keyWeight key (Table.get? first key) + keyWeight key (Table.get? second key) := by
  have hmerge := merge_of_unjoined (unjoined_of_weight ha hb h)
  rw [hmerge] at h ⊢
  have hjoined := combine_joined (a := a) hb
  have hdistinct := combine_distinct ha hb
  generalize combine a b = both at hjoined hdistinct h
  cases hjoined with
  | right he => rw [hae] at he; cases he
  | left _ he => rw [hbe] at he; cases he
  | apart => exact .inl rfl
  | @blended first second made hea heb _ _ hmade _ =>
      subst hea heb
      refine .inr ⟨first, second, made, rfl, rfl, rfl, fun key => ⟨hmade key, ?_⟩⟩
      rw [weight_blended hdistinct hmade, weight_left ha second, weight_right first hb,
        ← Finset.sum_add_distrib] at h
      have hpoint := (Finset.sum_eq_sum_iff_of_le fun key _ => keyWeight_blend_le key _ _).mp h
      rw [hmade key]
      by_cases hkey : key ∈ bothNames first second
      · exact hpoint key hkey
      · rw [mem_bothNames, not_or, ← Table.get?_eq_none_iff, ← Table.get?_eq_none_iff] at hkey
        rw [hkey.1, hkey.2]
        rfl

/-! ## Equal schemas -/

/-- Equal values no larger than the number weigh the same. -/
def SameWeight (n : Nat) : Prop :=
  ∀ {a b : Json}, a.size ≤ n → a.Distinct → b.Distinct → a.same b → weight a = weight b

theorem weightItems_same {n : Nat} (ih : SameWeight n) (hn : Json.sizeItems xs ≤ n)
    (hx : ∀ x ∈ xs, x.Distinct) (hy : ∀ y ∈ ys, y.Distinct)
    (h : List.Forall₂ (fun x y : Json => x.same y) xs ys) : weightItems xs = weightItems ys := by
  induction h with
  | nil => rfl
  | cons hsame _ ihrest =>
      rw [List.forall_mem_cons] at hx hy
      rw [Json.sizeItems] at hn
      rw [weightItems, weightItems, ih (by omega) hx.1 hy.1 hsame, ihrest (by omega) hx.2 hy.2]

theorem keyWeight_same {n : Nat} (ih : SameWeight n) (hn : v.size ≤ n) (hv : v.Distinct)
    (hw : w.Distinct) (h : v.same w) (key : String) :
    keyWeight key (some v) = keyWeight key (some w) := by
  by_cases hkey : key = "allOf"
  · subst hkey
    cases v with
    | arr xs =>
        obtain ⟨ys, rfl, hitems⟩ := Json.same_arr h
        rw [Json.size] at hn
        exact weightItems_same ih (by omega) (Json.distinctItems_iff.mp hv)
          (Json.distinctItems_iff.mp hw) hitems
    | _ =>
        have hweight := ih hn hv hw h
        cases w with
        | arr ys => cases h
        | _ => simp only [keyWeight, if_true, hweight]
  · rw [keyWeight_of_ne hkey, keyWeight_of_ne hkey]

theorem same_weight (n : Nat) : SameWeight n := by
  induction n with
  | zero =>
      intro a b hn
      have := Json.size_pos a
      omega
  | succ n ih =>
      intro a b hn ha hb h
      cases a with
      | arr xs =>
          obtain ⟨ys, rfl, hitems⟩ := Json.same_arr h
          rw [Json.size] at hn
          have hsum := weightItems_same ih (by omega) (Json.distinctItems_iff.mp ha)
            (Json.distinctItems_iff.mp hb) hitems
          cases hitems with
          | nil => rfl
          | cons => simp only [weight, List.isEmpty_cons, hsum]
      | obj first =>
          obtain ⟨second, rfl⟩ := Json.same_obj h
          rw [Json.size] at hn
          rw [weight_left ha second, weight_right first hb]
          refine Finset.sum_congr rfl fun key _ => ?_
          have hrel := (Json.same_obj_iff ha hb).mp h key
          cases hv : Table.get? first key with
          | none =>
              rw [hv] at hrel
              cases hw : Table.get? second key with
              | none => rfl
              | some w => rw [hw] at hrel; cases hrel
          | some v =>
              rw [hv] at hrel
              cases hw : Table.get? second key with
              | none => rw [hw] at hrel; cases hrel
              | some w =>
                  rw [hw] at hrel
                  have hsize : v.size ≤ n := Nat.le_trans (Json.size_le_of_get? hv) (by omega)
                  cases hrel with
                  | some hsame =>
                      exact keyWeight_same ih hsize (ha.member hv) (hb.member hw) hsame key
      | null | bool _ | num _ | str _ =>
          cases b <;> simp [Json.same, weight] at h ⊢

theorem weight_same (ha : a.Distinct) (hb : b.Distinct) (h : a.same b) : weight a = weight b :=
  same_weight _ (Nat.le_refl _) ha hb h

/-! ## Finishing -/

/-- Merging a list of schemas into one makes nothing heavier. -/
theorem weight_foldl_le (ha : a.Distinct) (hxs : ∀ x ∈ xs, x.Distinct) :
    weight (xs.foldl merge a) ≤ weight a + weightItems xs := by
  induction xs generalizing a with
  | nil => exact Nat.le_refl _
  | cons x xs ih =>
      rw [List.forall_mem_cons] at hxs
      have hstep := weight_merge_le ha hxs.1
      have hrest := ih (merge_distinct ha hxs.1) hxs.2
      rw [List.foldl_cons, weightItems]
      omega

theorem weight_mergeAll_le (hxs : ∀ x ∈ xs, x.Distinct) :
    weight (mergeAll xs) ≤ weightItems xs := by
  have h := weight_foldl_le (a := .obj []) ⟨List.nodup_nil, trivial⟩ hxs
  rwa [weight, weightMembers, Nat.zero_add] at h

/-- A schema weighs what its `allOf` list does and what is beside it. -/
theorem weight_beside (h : (Json.obj members).Distinct)
    (hparts : Table.get? members "allOf" = some (.arr parts)) :
    weight (.obj members) =
      weightItems parts + weight (.obj (Table.swapErase members "allOf")) := by
  have hmem : "allOf" ∈ (Table.names members).toFinset :=
    List.mem_toFinset.mpr (Table.mem_names.mpr ⟨_, Table.mem_of_get? hparts⟩)
  have hrest : ∀ key ∈ Table.names (Table.swapErase members "allOf"),
      key ∈ (Table.names members).toFinset := by
    intro key hkey
    obtain ⟨value, hkey⟩ := Table.mem_names.mp hkey
    exact List.mem_toFinset.mpr (Table.mem_names.mpr ⟨value, Table.mem_swapErase hkey⟩)
  have hsplit : ∀ key, keyWeight key (Table.get? members key) =
      (if "allOf" = key then weightItems parts else 0) +
        keyWeight key (Table.get? (Table.swapErase members "allOf") key) := by
    intro key
    rw [Table.get?_swapErase h.1]
    by_cases hkey : "allOf" = key
    · subst hkey
      simp only [hparts, keyWeight, if_true, Nat.add_zero]
    · rw [if_neg hkey, if_neg hkey, Nat.zero_add]
  rw [weight_obj h.1 fun key hkey => List.mem_toFinset.mpr hkey,
    weight_obj (swapErase_distinct h "allOf").1 hrest]
  simp only [hsplit, Finset.sum_add_distrib, Finset.sum_ite_eq]
  rw [if_pos hmem]

/-- Merging an `allOf` list into its schema does not make it heavier. -/
theorem weight_collapseAllOf_le (h : v.Distinct) : weight (collapseAllOf v) ≤ weight v := by
  have hcollapsed := collapsed v
  generalize collapseAllOf v = w at hcollapsed
  cases hcollapsed with
  | kept => exact Nat.le_refl _
  | @alone members parts he hparts =>
      subst he
      have hdistinct := Json.distinctItems_iff.mp (h.member hparts)
      rw [weight_beside h hparts]
      exact Nat.le_trans (weight_mergeAll_le hdistinct) (Nat.le_add_right _ _)
  | @beside members parts he hparts =>
      subst he
      have hdistinct := Json.distinctItems_iff.mp (h.member hparts)
      have hboth := weight_merge_le (mergeAll_distinct hdistinct) (swapErase_distinct h "allOf")
      rw [weight_beside h hparts]
      exact Nat.le_trans hboth (Nat.add_le_add_right (weight_mergeAll_le hdistinct) _)

/-- Moved requirements no longer weigh in the schema. -/
theorem Moves.weight_lt {names : List Json} {items : Members} (h : (Json.obj members).Distinct)
    (hmoves : Moves members names key items) :
    weight (moveRequired (.obj members)) < weight (.obj members) := by
  have hkey : key ≠ "allOf" ∧ key ≠ "required" := by
    rcases hmoves.keyword with rfl | rfl <;> decide
  have hdistinct := moveRequired_distinct h
  rw [moveRequired_moves hmoves] at hdistinct ⊢
  have hlookup : ∀ other, Table.get? (Table.insert (Table.swapErase members "required") key
        (.obj (Table.insert items "required" (.arr names)))) other =
      if key = other then some (.obj (Table.insert items "required" (.arr names)))
      else if "required" = other then none else Table.get? members other := by
    intro other
    rw [Table.get?_insert, Table.get?_swapErase h.1]
  have hnames : ∀ other ∈ Table.names (Table.insert (Table.swapErase members "required") key
      (.obj (Table.insert items "required" (.arr names)))),
      other ∈ (Table.names members).toFinset := by
    intro other hother
    rw [← Table.get?_isSome_iff, hlookup] at hother
    rw [List.mem_toFinset, ← Table.get?_isSome_iff]
    split at hother
    · next he => rw [← he, hmoves.target]; rfl
    · split at hother
      · cases hother
      · exact hother
  have hrequired : "required" ∈ (Table.names members).toFinset :=
    List.mem_toFinset.mpr (Table.mem_names.mpr ⟨_, Table.mem_of_get? hmoves.required⟩)
  rw [moved, weight_obj hdistinct.1 hnames,
    weight_obj h.1 fun other hother => List.mem_toFinset.mpr hother]
  refine Finset.sum_lt_sum (fun other _ => ?_) ⟨"required", hrequired, ?_⟩
  · rw [hlookup]
    split
    · next he => rw [← he, hmoves.target, keyWeight_of_ne hkey.1, keyWeight_of_ne hkey.1]
    · split
      · exact Nat.zero_le _
      · exact Nat.le_refl _
  · rw [hlookup, if_neg hkey.2, if_pos rfl, hmoves.required]
    exact Nat.zero_lt_one

/-- Moving requirements changes nothing, or makes the schema lighter. -/
theorem weight_moveRequired (h : v.Distinct) :
    moveRequired v = v ∨ weight (moveRequired v) < weight v := by
  rcases moveRequired_cases v with he | ⟨members, names, key, items, rfl, hmoves⟩
  · exact .inl he
  · exact .inr (hmoves.weight_lt h)

end Schema

end SchemaForm
