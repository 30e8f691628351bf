/-
What combining and merging give under each name.

Under a name a combined schema has what one of the two has, or both values made one
(`get?_combineMembers`); it is put together so exactly unless a name has two values that
cannot be made one (`combineMembers_eq_none_iff`).  `Joined` lists the ways in which two
schemas are combined, and `get?_sides_left` and `get?_sides_right` say what merging hands on
to combining.  Schemas that have nothing to merge, and a name with values that cannot be made
one, stay side by side (`merge_of_unmergeable`).

`Collapsed` lists the ways in which an `allOf` list is merged into its schema, and `Moves` says
when requirements are moved.
-/
import SchemaForm.Proofs.Json.Equality
import SchemaForm.Schema.Combine

namespace SchemaForm

namespace Schema

variable {key name : String} {a b v : Json} {first second acc made left right : Members}
  {xs ys : List Json}

/-! ## Combining -/

/-- The value of a keyword that two schemas have, if it can be made one. -/
def both? (key : String) (old value : Json) : Option Json :=
  if old == value then some old else combineKeyword key old value

/-- The value of a keyword in a combined schema. -/
def blend (key : String) : Option Json → Option Json → Option Json
  | none, value => value
  | some old, none => some old
  | some old, some value => both? key old value

theorem mem_union_iff {x : Json} : x ∈ union xs ys ↔ x ∈ xs ∨ x ∈ ys ∧ ¬∃ z ∈ xs, x.same z := by
  rw [union, List.mem_append, List.mem_filter, Bool.not_eq_true', ← Bool.not_eq_true,
    Json.contains_iff]

theorem combineKeyword_of_not_alternative (h : key ∉ alternativeKeywords) :
    combineKeyword key a b = combineLimit? key a b := by
  unfold combineKeyword
  rw [if_neg (by simpa using h)]

theorem tighter?_cases {replaces : Binary64 → Binary64 → Bool}
    (h : tighter? replaces a b = some v) : v = a ∨ v = b := by
  obtain ⟨x, -, h⟩ := Option.bind_eq_some_iff.mp h
  obtain ⟨y, -, h⟩ := Option.bind_eq_some_iff.mp h
  obtain rfl := Option.some.inj h
  split
  · exact .inr rfl
  · exact .inl rfl

/-- Two demands are united, if both are lists. -/
theorem combineKeyword_demand (h : key ∈ demandKeywords) : combineKeyword key a b = some v ↔
    ∃ xs ys, a = .arr xs ∧ b = .arr ys ∧ v = .arr (union xs ys) := by
  have hkeys : key ∉ alternativeKeywords ∧ key ≠ "type" := by
    simp only [demandKeywords, List.mem_cons, List.not_mem_nil, or_false] at h
    rcases h with rfl | rfl <;> decide
  rw [combineKeyword_of_not_alternative hkeys.1]
  unfold combineLimit?
  rw [if_neg hkeys.2, if_pos (by simpa using h)]
  constructor
  · intro hv
    split at hv
    · next xs ys => exact ⟨xs, ys, rfl, rfl, (Option.some.inj hv).symm⟩
    · cases hv
  · rintro ⟨xs, ys, rfl, rfl, rfl⟩
    rfl

theorem get?_combineMembers_acc (hn : (Table.names second).Nodup)
    (h : combineMembers first acc second = some made) (key : String) :
    Table.get? made key = match Table.get? first key, Table.get? second key with
      | _, none => Table.get? acc key
      | none, some value => some value
      | some old, some value =>
          if old == value then Table.get? acc key else combineKeyword key old value := by
  induction second generalizing acc with
  | nil =>
      rw [combineMembers] at h
      obtain rfl := Option.some.inj h
      cases Table.get? first key <;> rfl
  | cons entry rest ih =>
      obtain ⟨name, value⟩ := entry
      obtain ⟨hnot, hrest⟩ := List.nodup_cons.mp hn
      have hnone : Table.get? rest name = none := Table.get?_eq_none_iff.mpr hnot
      rw [combineMembers] at h
      rw [Table.get?_cons]
      by_cases hname : name = key
      · subst hname
        rw [if_pos rfl]
        split at h
        · next hold =>
            rw [ih hrest h, hold, hnone]
            simp only [Table.get?_insert, if_true]
        · next old hold =>
            rw [hold]
            split at h
            · next hsame =>
                rw [ih hrest h, hold, hnone]
                simp only [hsame, if_true]
            · next hdiffer =>
                split at h
                · next both hboth =>
                    rw [ih hrest h, hold, hnone]
                    simp only [hdiffer, Table.get?_insert, if_true, hboth]
                    rfl
                · cases h
      · rw [if_neg hname]
        have hacc : ∀ value, Table.get? (Table.insert acc name value) key = Table.get? acc key :=
          fun value => by rw [Table.get?_insert, if_neg hname]
        split at h
        · rw [ih hrest h, hacc]
        · split at h
          · rw [ih hrest h]
          · split at h
            · rw [ih hrest h, hacc]
            · cases h

theorem get?_combineMembers (hn : (Table.names second).Nodup)
    (h : combineMembers first first second = some made) (key : String) :
    Table.get? made key = blend key (Table.get? first key) (Table.get? second key) := by
  rw [get?_combineMembers_acc hn h]
  cases hold : Table.get? first key with
  | none => cases Table.get? second key <;> rfl
  | some old =>
      cases Table.get? second key with
      | none => rfl
      | some value => rfl

/-- Two schemas cannot be combined when some name has values that cannot be made one. -/
theorem combineMembers_eq_none_iff (hn : (Table.names second).Nodup) :
    combineMembers first acc second = none ↔
      ∃ key old value, Table.get? first key = some old ∧ Table.get? second key = some value ∧
        both? key old value = none := by
  induction second generalizing acc with
  | nil => simp [combineMembers]
  | cons entry rest ih =>
      obtain ⟨name, value⟩ := entry
      obtain ⟨hnot, hrest⟩ := List.nodup_cons.mp hn
      -- a clash is one of the first entry, or of a later one
      have hsplit : (∃ key old v, Table.get? first key = some old ∧
            Table.get? ((name, value) :: rest) key = some v ∧ both? key old v = none) ↔
          (∃ old, Table.get? first name = some old ∧ both? name old value = none) ∨
            ∃ key old v, Table.get? first key = some old ∧ Table.get? rest key = some v ∧
              both? key old v = none := by
        constructor
        · rintro ⟨key, old, v, hold, hv, hboth⟩
          rw [Table.get?_cons] at hv
          split at hv
          · next he =>
              obtain rfl := Option.some.inj hv
              subst he
              exact .inl ⟨old, hold, hboth⟩
          · exact .inr ⟨key, old, v, hold, hv, hboth⟩
        · rintro (⟨old, hold, hboth⟩ | ⟨key, old, v, hold, hv, hboth⟩)
          · exact ⟨name, old, value, hold, by rw [Table.get?_cons, if_pos rfl], hboth⟩
          · refine ⟨key, old, v, hold, ?_, hboth⟩
            rw [Table.get?_cons, if_neg, hv]
            rintro rfl
            exact hnot (Table.mem_names.mpr ⟨v, Table.mem_of_get? hv⟩)
      rw [hsplit, combineMembers]
      split
      · next hold => simp only [ih hrest, hold, reduceCtorEq, false_and, exists_false, false_or]
      · next old hold =>
          simp only [hold, Option.some.injEq, exists_eq_left', both?]
          split
          · next hsame => simp only [ih hrest, reduceCtorEq, false_or, both?]
          · split
            · next both hboth => simp only [ih hrest, hboth, reduceCtorEq, false_or, both?]
            · next hboth => simp only [hboth, true_or]

/-- Some name keeps two objects from being combined, or one of the two is no object. -/
def Apart (a b : Json) : Prop :=
  ∀ first second, a = .obj first → b = .obj second →
    ∃ key old value, Table.get? first key = some old ∧ Table.get? second key = some value ∧
      both? key old value = none

/-- The ways in which two schemas become one. -/
inductive Joined (a b : Json) : Json → Prop
  | right : a.isEmpty = true → Joined a b b
  | left : a.isEmpty = false → b.isEmpty = true → Joined a b a
  | blended {first second made : Members} : a = .obj first → b = .obj second →
      a.isEmpty = false → b.isEmpty = false →
      (∀ key, Table.get? made key = blend key (Table.get? first key) (Table.get? second key)) →
      (∀ key old value, Table.get? first key = some old → Table.get? second key = some value →
        (both? key old value).isSome) →
      Joined a b (.obj made)
  | apart : a.isEmpty = false → b.isEmpty = false → Apart a b → Joined a b (sideBySide a b)

theorem combine_joined (hb : b.Distinct) : Joined a b (combine a b) := by
  unfold combine
  split
  · next ha => exact .right ha
  · next ha =>
      rw [Bool.not_eq_true] at ha
      split
      · next hempty => exact .left ha hempty
      · next hempty =>
          rw [Bool.not_eq_true] at hempty
          split
          · next first second =>
              split
              · next made hmade =>
                  refine .blended rfl rfl ha hempty (get?_combineMembers hb.1 hmade) ?_
                  intro key old value hold hvalue
                  rw [Option.isSome_iff_ne_none]
                  intro hnone
                  have hapart : combineMembers first first second = none :=
                    (combineMembers_eq_none_iff hb.1).mpr ⟨key, old, value, hold, hvalue, hnone⟩
                  rw [hmade] at hapart
                  cases hapart
              · next hnone =>
                  refine .apart ha hempty ?_
                  rintro _ _ ⟨⟩ ⟨⟩
                  exact (combineMembers_eq_none_iff hb.1).mp hnone
          · next hobj =>
              refine .apart ha hempty ?_
              rintro first second rfl rfl
              exact absurd rfl (hobj first second rfl)

/-! ## Merging -/

/-- The value that merging gives a name whose values it merges. -/
def joint? (first second : Members) (key : String) : Option Json :=
  if key = "items" then mergeItems? first second
  else if key ∈ mergedMaps then mergeMap? key first second
  else none

/-- What merging hands on to combining. -/
def sides (first second : Members) : Members × Members :=
  settle "items" (mergeItems? first second) <|
  settle "definitions" (mergeMap? "definitions" first second) <|
  settle "patternProperties" (mergeMap? "patternProperties" first second) <|
  settle "properties" (mergeMap? "properties" first second) (first, second)

theorem merge_obj (first second : Members) :
    merge (.obj first) (.obj second) =
      combine (.obj (sides first second).1) (.obj (sides first second).2) := by
  rw [merge]
  rfl

/-- Two schemas have nothing that is merged before they are combined. -/
def Unjoined (a b : Json) : Prop :=
  ∀ first second, a = .obj first → b = .obj second → ∀ key, joint? first second key = none

/-- Objects are merged by combining their sides, and other schemas are combined. -/
theorem merge_cases (a b : Json) : Unjoined a b ∧ merge a b = combine a b ∨
    ∃ first second, a = .obj first ∧ b = .obj second ∧
      merge a b = combine (.obj (sides first second).1) (.obj (sides first second).2) := by
  by_cases hobj : ∃ first second, a = .obj first ∧ b = .obj second
  · obtain ⟨first, second, rfl, rfl⟩ := hobj
    exact .inr ⟨first, second, rfl, rfl, merge_obj first second⟩
  · refine .inl ⟨fun first second ha hb => absurd ⟨first, second, ha, hb⟩ hobj, ?_⟩
    rw [merge]
    exact fun first second ha hb => hobj ⟨first, second, ha, hb⟩

theorem mergeMap?_eq_some : mergeMap? key first second = some v ↔
    ∃ left right, Table.get? first key = some (.obj left) ∧
      Table.get? second key = some (.obj right) ∧ v = .obj (mergeEntries left left right) := by
  unfold mergeMap?
  constructor
  · intro h
    split at h
    · next left right hl hr => exact ⟨left, right, hl, hr, (Option.some.inj h).symm⟩
    · cases h
  · rintro ⟨left, right, hl, hr, rfl⟩
    split
    · next hl' hr' =>
        rw [hl] at hl'
        rw [hr] at hr'
        cases hl'
        cases hr'
        rfl
    · next hnot => exact absurd hr (hnot left right hl)

theorem mergeItems?_eq_some : mergeItems? first second = some v ↔
    ∃ left right, Table.get? first "items" = some (.obj left) ∧
      Table.get? second "items" = some (.obj right) ∧ v = merge (.obj left) (.obj right) := by
  unfold mergeItems?
  constructor
  · intro h
    split at h
    · next left right hl hr => exact ⟨left, right, hl, hr, (Option.some.inj h).symm⟩
    · cases h
  · rintro ⟨left, right, hl, hr, rfl⟩
    split
    · next hl' hr' =>
        rw [hl] at hl'
        rw [hr] at hr'
        cases hl'
        cases hr'
        rfl
    · next hnot => exact absurd hr (hnot left right hl)

/-- Only two objects are merged, and only under the names of maps and of items. -/
theorem joint?_eq_some : joint? first second key = some v ↔
    ∃ left right, Table.get? first key = some (.obj left) ∧
      Table.get? second key = some (.obj right) ∧
      (key = "items" ∧ v = merge (.obj left) (.obj right) ∨
        key ∈ mergedMaps ∧ v = .obj (mergeEntries left left right)) := by
  unfold joint?
  by_cases hitems : key = "items"
  · subst hitems
    have hmaps : "items" ∉ mergedMaps := by decide
    simp only [if_true, mergeItems?_eq_some, true_and, hmaps, false_and, or_false]
  · rw [if_neg hitems]
    by_cases hmaps : key ∈ mergedMaps
    · simp only [hmaps, if_true, mergeMap?_eq_some, hitems, false_and, false_or, true_and]
    · simp [hmaps, hitems]

theorem joint?_allOf (first second : Members) : joint? first second "allOf" = none := rfl

theorem settle_left (key : String) (value : Option Json) (sides : Members × Members)
    (other : String) : Table.get? (settle key value sides).1 other =
      if key = other then value.or (Table.get? sides.1 other) else Table.get? sides.1 other := by
  cases value with
  | none => simp only [settle, Option.none_or, ite_self]
  | some v => simp only [settle, Table.get?_insert, Option.some_or]

theorem settle_right (key : String) (value : Option Json) {sides : Members × Members}
    (hn : (Table.names sides.2).Nodup) (other : String) :
    Table.get? (settle key value sides).2 other =
      if key = other ∧ value.isSome then none else Table.get? sides.2 other := by
  cases value with
  | none => simp [settle]
  | some v => simp [settle, Table.get?_swapErase hn]

theorem settle_nodup (key : String) (value : Option Json) (sides : Members × Members)
    (hn : (Table.names sides.2).Nodup) : (Table.names (settle key value sides).2).Nodup := by
  cases value with
  | none => exact hn
  | some v => exact Table.nodup_swapErase hn key

theorem get?_sides_left (first second : Members) (key : String) :
    Table.get? (sides first second).1 key =
      (joint? first second key).or (Table.get? first key) := by
  simp only [sides, settle_left, joint?, mergedMaps, List.mem_cons, List.not_mem_nil, or_false]
  by_cases h₁ : key = "items"
  · subst h₁; simp
  by_cases h₂ : key = "definitions"
  · subst h₂; simp
  by_cases h₃ : key = "patternProperties"
  · subst h₃; simp
  by_cases h₄ : key = "properties"
  · subst h₄; simp
  simp [h₁, h₂, h₃, h₄, Ne.symm h₁, Ne.symm h₂, Ne.symm h₃, Ne.symm h₄]

theorem get?_sides_right (hn : (Table.names second).Nodup) (key : String) :
    Table.get? (sides first second).2 key =
      if (joint? first second key).isSome then none else Table.get? second key := by
  have h₁ := settle_nodup "properties" (mergeMap? "properties" first second) (first, second) hn
  have h₂ := settle_nodup "patternProperties" (mergeMap? "patternProperties" first second) _ h₁
  have h₃ := settle_nodup "definitions" (mergeMap? "definitions" first second) _ h₂
  rw [sides, settle_right _ _ h₃, settle_right _ _ h₂, settle_right _ _ h₁, settle_right _ _ hn]
  simp only [joint?, mergedMaps, List.mem_cons, List.not_mem_nil, or_false]
  by_cases h₁ : key = "items"
  · subst h₁; simp
  by_cases h₂ : key = "definitions"
  · subst h₂; simp
  by_cases h₃ : key = "patternProperties"
  · subst h₃; simp
  by_cases h₄ : key = "properties"
  · subst h₄; simp
  simp [h₁, h₂, h₃, h₄, Ne.symm h₁, Ne.symm h₂, Ne.symm h₃, Ne.symm h₄]

theorem get?_mergeEntries_acc (hn : (Table.names right).Nodup) (acc : Members) (name : String) :
    Table.get? (mergeEntries left acc right) name = match Table.get? right name with
      | none => Table.get? acc name
      | some value => some (match Table.get? left name with
          | some old => merge old value
          | none => value) := by
  induction right generalizing acc with
  | nil =>
      rw [mergeEntries]
      rfl
  | cons entry rest ih =>
      obtain ⟨other, value⟩ := entry
      obtain ⟨hnot, hrest⟩ := List.nodup_cons.mp hn
      rw [mergeEntries, ih hrest, Table.get?_cons, Table.get?_insert]
      by_cases hname : other = name
      · subst hname
        have hnone : Table.get? rest other = none := Table.get?_eq_none_iff.mpr hnot
        cases Table.get? left other <;> simp [hnone]
      · simp only [hname, if_false]

/-- Under a name a merged map has what one of the two has, or both merged. -/
theorem get?_mergeEntries (hn : (Table.names right).Nodup) (name : String) :
    Table.get? (mergeEntries left left right) name =
      match Table.get? left name, Table.get? right name with
      | some old, some value => some (merge old value)
      | none, value => value
      | old, none => old := by
  rw [get?_mergeEntries_acc hn]
  cases Table.get? left name <;> cases Table.get? right name <;> rfl

/-! ## Schemas that stay side by side -/

theorem sides_of_none (h : ∀ key, joint? first second key = none) :
    sides first second = (first, second) := by
  have hmap : ∀ key ∈ mergedMaps, mergeMap? key first second = none := by
    intro key hkey
    have hjoint := h key
    rw [joint?, if_pos hkey] at hjoint
    · split at hjoint
      · next he => exact absurd (he ▸ hkey) (by decide)
      · exact hjoint
  have hitems : mergeItems? first second = none := h "items"
  rw [sides, hitems, hmap _ (by decide), hmap _ (by decide), hmap _ (by decide)]
  rfl

theorem merge_of_unjoined (h : Unjoined a b) : merge a b = combine a b := by
  rcases merge_cases a b with ⟨-, hmerge⟩ | ⟨first, second, rfl, rfl, hmerge⟩
  · exact hmerge
  · rw [hmerge, sides_of_none (h first second rfl rfl)]

/-- Two schemas that cannot be merged into one. -/
structure Unmergeable (a b : Json) : Prop where
  left : a.isEmpty = false
  right : b.isEmpty = false
  apart : Apart a b
  unjoined : Unjoined a b

theorem merge_of_unmergeable (h : Unmergeable a b) (hb : b.Distinct) :
    merge a b = sideBySide a b := by
  have hjoined := combine_joined (a := a) hb
  rw [merge_of_unjoined h.unjoined]
  generalize combine a b = both at hjoined
  cases hjoined with
  | right he => exact absurd he (Bool.eq_false_iff.mp h.left)
  | left _ he => exact absurd he (Bool.eq_false_iff.mp h.right)
  | apart => rfl
  | @blended first second made hea heb _ _ _ hboth =>
      obtain ⟨key, old, value, hold, hvalue, hnone⟩ := h.apart first second hea heb
      have := hboth key old value hold hvalue
      rw [hnone] at this
      cases this

/-- A name with two values that cannot be made one, of which the second is no object, keeps the
schemas side by side. -/
theorem merge_conflict {old value : Json} (hold : Table.get? first key = some old)
    (hnone : both? key old value = none) (hvalue : value.Distinct) (hobj : value.obj? = none) :
    merge (.obj first) (.obj [(key, value)]) = sideBySide (.obj first) (.obj [(key, value)]) := by
  have hget : Table.get? [(key, value)] key = some value := if_pos rfl
  refine merge_of_unmergeable ⟨?_, rfl, ?_, ?_⟩ ⟨List.nodup_singleton _, hvalue, trivial⟩
  · cases first with
    | nil => cases hold
    | cons => rfl
  · rintro _ _ ⟨⟩ ⟨⟩
    exact ⟨key, old, value, hold, hget, hnone⟩
  · rintro _ _ ⟨⟩ ⟨⟩ other
    cases hjoint : joint? first [(key, value)] other with
    | none => rfl
    | some v =>
        obtain ⟨left, right, -, hr, -⟩ := joint?_eq_some.mp hjoint
        rw [Table.get?_cons] at hr
        split at hr
        · obtain rfl := Option.some.inj hr
          cases hobj
        · cases hr

/-! ## Lists of schemas -/

/-- An empty schema adds nothing. -/
theorem merge_of_isEmpty (h : a.isEmpty = true) (b : Json) : merge a b = b := by
  have hunjoined : Unjoined a b := by
    rintro first second rfl rfl key
    obtain rfl := List.isEmpty_iff.mp h
    cases hjoint : joint? [] second key with
    | none => rfl
    | some v =>
        obtain ⟨_, _, hleft, -⟩ := joint?_eq_some.mp hjoint
        cases hleft
  rw [merge_of_unjoined hunjoined]
  unfold combine
  rw [if_pos h]

theorem merge_nil (b : Json) : merge (.obj []) b = b := merge_of_isEmpty rfl b

theorem mergeAll_cons (a : Json) (xs : List Json) : mergeAll (a :: xs) = xs.foldl merge a := by
  rw [mergeAll, List.foldl_cons, merge_nil]

theorem mergeAll_pair (a b : Json) : mergeAll [a, b] = merge a b := mergeAll_cons a [b]

/-- The ways in which an `allOf` list is merged into its schema. -/
inductive Collapsed (v : Json) : Json → Prop
  | kept : (∀ parts, v.get? "allOf" ≠ some (.arr parts)) → Collapsed v v
  | alone {members : Members} {parts : List Json} : v = .obj members →
      Table.get? members "allOf" = some (.arr parts) →
      Table.swapErase members "allOf" = [] → Collapsed v (mergeAll parts)
  | beside {members : Members} {parts : List Json} : v = .obj members →
      Table.get? members "allOf" = some (.arr parts) →
      Table.swapErase members "allOf" ≠ [] →
      Collapsed v (merge (mergeAll parts) (.obj (Table.swapErase members "allOf")))

theorem collapsed (v : Json) : Collapsed v (collapseAllOf v) := by
  unfold collapseAllOf
  split
  · next parts members hparts =>
      dsimp only
      split
      · next hlength =>
          rw [mergeAll_pair]
          refine .beside rfl hparts fun hnil => ?_
          have := Table.length_le_swapErase members "allOf"
          rw [hnil, List.length_nil] at this
          omega
      · exact .alone rfl hparts (Table.swapErase_eq_nil (by omega) hparts)
  · next v _ _ hnot =>
      refine .kept fun parts hparts => ?_
      cases v with
      | obj members => exact hnot parts members hparts rfl
      | _ => cases hparts

/-! ## Moving requirements -/

/-- The required names are moved to the item schema under the keyword. -/
structure Moves (members : Members) (names : List Json) (key : String) (items : Members) :
    Prop where
  required : Table.get? members "required" = some (.arr names)
  typed : isTyped (.obj members) "array" = true
  holder : ["items", "additionalItems"].find? (fun key =>
    (((Json.obj members).get? key).bind (·.get? "properties")).isSome) = some key
  target : Table.get? members key = some (.obj items)
  free : Table.has items "required" = false
  fits : Table.has items "additionalProperties" = true ∨
    ∀ name ∈ names, declares (.obj items) name = true

/-- What is left when the names are moved. -/
def moved (members : Members) (names : List Json) (key : String) (items : Members) : Json :=
  .obj (Table.insert (Table.swapErase members "required") key
    (.obj (Table.insert items "required" (.arr names))))

variable {members items : Members} {names : List Json}

theorem Moves.keyword (h : Moves members names key items) :
    key = "items" ∨ key = "additionalItems" := by
  simpa using List.mem_of_find?_eq_some h.holder

theorem moveRequired_moves (h : Moves members names key items) :
    moveRequired (.obj members) = moved members names key items := by
  have hnames : ((Json.obj members).get? "required").bind Json.arr? = some names := by
    rw [Json.get?, h.required]
    rfl
  have hfits : (!Table.has items "required" &&
      (Table.has items "additionalProperties" || names.all (declares (.obj items)))) = true := by
    rw [h.free, Bool.not_false, Bool.true_and, Bool.or_eq_true, List.all_eq_true]
    exact h.fits
  have hitems : (Json.obj members).get? key = some (.obj items) := h.target
  unfold moveRequired
  simp only [hnames, h.typed, h.holder, Option.bind_some, hitems, Option.map_some]
  rw [if_pos hfits]
  rfl

theorem moveRequired_cases (v : Json) : moveRequired v = v ∨ ∃ members names key items,
    v = .obj members ∧ Moves members names key items := by
  unfold moveRequired
  split
  · next members names hnames =>
      dsimp only
      split
      · next key items htyped hholder =>
          split
          · next hfits =>
              obtain ⟨found, hfind, hpair⟩ := Option.bind_eq_some_iff.mp hholder
              obtain ⟨value, hvalue, he⟩ := Option.map_eq_some_iff.mp hpair
              obtain ⟨rfl, rfl⟩ := Prod.mk.inj he
              obtain ⟨list, hlist, hnames⟩ := Option.bind_eq_some_iff.mp hnames
              obtain rfl : list = .arr names := by
                cases list with
                | arr items => exact congrArg Json.arr (Option.some.inj hnames)
                | _ => cases hnames
              rw [Bool.and_eq_true, Bool.not_eq_true', Bool.or_eq_true, List.all_eq_true] at hfits
              exact .inr ⟨members, names, found, items, rfl, hlist, htyped, hfind, hvalue, hfits.1,
                hfits.2⟩
          · exact .inl rfl
      · exact .inl rfl
  · exact .inl rfl

/-- Requirements that are moved are not where they were. -/
theorem moveRequired_eq_self_iff (hn : (Table.names members).Nodup) :
    moveRequired (.obj members) = .obj members ↔ ∀ names key items,
      ¬Moves members names key items := by
  constructor
  · intro h names key items hmoves
    have hne : key ≠ "required" := by
      rcases hmoves.keyword with rfl | rfl <;> decide
    rw [moveRequired_moves hmoves] at h
    have hrequired := congrArg (·.get? "required") h
    simp only [moved, Json.get?, Table.get?_insert, if_neg hne, Table.get?_swapErase hn, if_true,
      hmoves.required] at hrequired
    cases hrequired
  · intro h
    rcases moveRequired_cases (.obj members) with he | ⟨_, names, key, items, he, hmoves⟩
    · exact he
    · exact absurd (Json.obj.inj he ▸ hmoves) (h names key items)

end Schema

end SchemaForm
