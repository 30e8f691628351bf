/-
What the references of a schema may be, place by place.

`Aimed A p role v` says of every pointer text under the `$ref` of a schema object in `v` that
it is one that `A` allows at the place of that object.  Places are followed through
`properties`, `items`, `additionalItems` and the positions of tuples, and the members of an
`allOf` list are at the place of the schema around them; under any other keyword a schema may be
moved or copied when schemas are merged, and no place is followed there.  So merging keeps it,

    Aimed A p .schema a → Aimed A p .schema b → Aimed A p .schema (merge a b)

whatever the shape of the two schemas is (compare `Proofs.Reference.Merging`, where a place is
known for every reference, of schemas of a regular shape).
-/
import SchemaForm.Proofs.Schema.Combining
import SchemaForm.Schema.Keyword

namespace SchemaForm

namespace Schema

/-- The pointer texts that are allowed under `$ref`, at a place or where none is followed. -/
structure Aim where
  allows : Option (List String) → String → Prop
  /-- What is allowed at some place is allowed where none is followed. -/
  anywhere : ∀ {p : Option (List String)} {text : String}, allows p text → allows none text

/-- The keywords below which places are followed, and the positions of tuples. -/
def isFollowed (key : String) : Bool :=
  ["properties", "items", "additionalItems"].contains key || (Pointer.index? key).isSome

/-- The place one segment below. -/
def placeBelow (p : Option (List String)) (segment : String) : Option (List String) :=
  p.map (· ++ [segment])

/-- The place of the value of a keyword. -/
def keywordPlace (p : Option (List String)) (key : String) : Option (List String) :=
  if isFollowed key then placeBelow p key else none

@[simp] theorem placeBelow_none (segment : String) : placeBelow none segment = none := rfl

@[simp] theorem keywordPlace_none (key : String) : keywordPlace none key = none := by
  rw [keywordPlace, placeBelow_none, ite_self]

theorem keywordPlace_of_followed (here : List String) {key : String}
    (h : isFollowed key = true) : keywordPlace (some here) key = some (here ++ [key]) := by
  rw [keywordPlace, if_pos h]
  rfl

theorem keywordPlace_of_not_followed (p : Option (List String)) {key : String}
    (h : isFollowed key = false) : keywordPlace p key = none := by
  simp only [keywordPlace, h, Bool.false_eq_true, if_false]

/-- Every pointer text under the `$ref` of a schema object is allowed at its place. -/
inductive Aimed (A : Aim) : Option (List String) → Role → Json → Prop
  | list {p : Option (List String)} {role : Role} {items : List Json} :
      (∀ i x, items[i]? = some x → Aimed A (placeBelow p (Nat.repr i)) .schema x) →
      Aimed A p role (.arr items)
  | map {p : Option (List String)} {entries : Members} :
      (∀ name v, (name, v) ∈ entries → Aimed A (placeBelow p name) .schema v) →
      Aimed A p .map (.obj entries)
  | schema {p : Option (List String)} {members : Members} :
      (∀ text, ("$ref", .str text) ∈ members → Pointer.isPointer text = true → A.allows p text) →
      (∀ items, ("allOf", .arr items) ∈ members → ∀ x ∈ items, Aimed A p .schema x) →
      (∀ key v role, (key, v) ∈ members → Role.ofKeyword? key = some role →
        (key = "allOf" → v.arr? = none) → Aimed A (keywordPlace p key) role v) →
      Aimed A p .schema (.obj members)
  | scalar {p : Option (List String)} {role : Role} {v : Json} : v.arr? = none → v.obj? = none →
      Aimed A p role v

/-- What a member of an aimed schema object meets. -/
structure AimedMember (A : Aim) (p : Option (List String)) (key : String) (v : Json) : Prop where
  reference : key = "$ref" → ∀ text, v = .str text → Pointer.isPointer text = true →
    A.allows p text
  parts : key = "allOf" → ∀ items, v = .arr items → ∀ x ∈ items, Aimed A p .schema x
  other : ∀ role, Role.ofKeyword? key = some role → (key = "allOf" → v.arr? = none) →
    Aimed A (keywordPlace p key) role v

variable {A : Aim} {p : Option (List String)} {role : Role} {key : String} {a b v : Json}
  {members first second acc made left right : Members} {xs ys : List Json}

theorem aimed_schema : Aimed A p .schema (.obj members) ↔
    ∀ key v, (key, v) ∈ members → AimedMember A p key v := by
  constructor
  · intro h
    cases h with
    | schema href hparts hother =>
        intro key v hm
        refine ⟨?_, ?_, ?_⟩
        · rintro rfl text rfl hpointer
          exact href text hm hpointer
        · rintro rfl items rfl
          exact hparts items hm
        · intro role hr hall
          exact hother key v role hm hr hall
    | scalar _ hobj => cases hobj
  · intro h
    refine .schema ?_ ?_ ?_
    · intro text hm hpointer
      exact (h _ _ hm).reference rfl text rfl hpointer
    · intro items hm
      exact (h _ _ hm).parts rfl items rfl
    · intro key v role hm hr hall
      exact (h _ _ hm).other role hr hall

theorem aimed_map : Aimed A p .map (.obj members) ↔
    ∀ name v, (name, v) ∈ members → Aimed A (placeBelow p name) .schema v := by
  constructor
  · intro h
    cases h with
    | map hentries => exact hentries
    | scalar _ hobj => cases hobj
  · exact .map

theorem aimed_list : Aimed A p role (.arr xs) ↔
    ∀ i x, xs[i]? = some x → Aimed A (placeBelow p (Nat.repr i)) .schema x := by
  constructor
  · intro h
    cases h with
    | list hitems => exact hitems
    | scalar harr _ => cases harr
  · exact .list

/-- Where no place is followed, the order of a list does not matter. -/
theorem aimed_list_anywhere : Aimed A none role (.arr xs) ↔ ∀ x ∈ xs, Aimed A none .schema x := by
  rw [aimed_list]
  constructor
  · intro h x hx
    obtain ⟨i, hi⟩ := List.mem_iff_getElem?.mp hx
    exact h i x hi
  · intro h i x hx
    exact h x (List.mem_of_getElem? hx)

theorem Aimed.anywhere (h : Aimed A p role v) : Aimed A none role v := by
  induction h with
  | list _ ih => exact .list ih
  | map _ ih => exact .map ih
  | schema href _ _ ihparts ihother =>
      refine .schema ?_ ihparts ?_
      · intro text hm hpointer
        exact A.anywhere (href text hm hpointer)
      · intro key v role hm hr hall
        rw [keywordPlace_none]
        exact ihother key v role hm hr hall
  | scalar harr hobj => exact .scalar harr hobj

theorem allows_below {here there : List String}
    (hA : ∀ rest text, A.allows (some (here ++ rest)) text → A.allows (some (there ++ rest)) text)
    (segment : String) (rest : List String) (text : String)
    (h : A.allows (some ((here ++ [segment]) ++ rest)) text) :
    A.allows (some ((there ++ [segment]) ++ rest)) text := by
  rw [List.append_assoc] at h ⊢
  exact hA _ text h

/-- A value is aimed at another place as well where what is allowed within the one is allowed
within the other. -/
theorem Aimed.moved {here there : List String} (h : Aimed A (some here) role v)
    (hA : ∀ rest text, A.allows (some (here ++ rest)) text →
      A.allows (some (there ++ rest)) text) : Aimed A (some there) role v := by
  generalize hp : some here = p at h
  induction h generalizing here there with
  | list _ ih =>
      subst hp
      exact .list fun i x hx => ih i x hx (allows_below hA _) rfl
  | map _ ih =>
      subst hp
      exact .map fun name v hm => ih name v hm (allows_below hA _) rfl
  | schema href hparts hother ihparts ihother =>
      subst hp
      refine .schema ?_ ?_ ?_
      · intro text hm hpointer
        have ht := href text hm hpointer
        rw [← List.append_nil here] at ht
        rw [← List.append_nil there]
        exact hA [] text ht
      · intro items hm x hx
        exact ihparts items hm x hx hA rfl
      · intro key v role hm hr hall
        cases hfollowed : isFollowed key with
        | true =>
            rw [keywordPlace_of_followed there hfollowed]
            exact ihother key v role hm hr hall (allows_below hA key)
              (keywordPlace_of_followed here hfollowed).symm
        | false =>
            have hv := hother key v role hm hr hall
            rw [keywordPlace_of_not_followed _ hfollowed] at hv ⊢
            exact hv
  | scalar harr hobj => exact .scalar harr hobj

/-! ## Members -/

theorem aimedMember_data (hk : Role.ofKeyword? key = none) : AimedMember A p key v where
  reference := by
    rintro rfl
    exact absurd hk (Option.some_ne_none Role.schema)
  parts := by
    rintro rfl
    exact absurd hk (Option.some_ne_none Role.schema)
  other role hr := absurd (hr.symm.trans hk) (Option.some_ne_none role)

theorem aimedMember_scalar (hk : key ≠ "$ref") (harr : v.arr? = none) (hobj : v.obj? = none) :
    AimedMember A p key v where
  reference he := absurd he hk
  parts := by
    rintro - items rfl
    cases harr
  other _ _ _ := .scalar harr hobj

theorem aimedMember_parts (h : ∀ x ∈ xs, Aimed A p .schema x) :
    AimedMember A p "allOf" (.arr xs) where
  reference he := absurd he (by decide)
  parts := by
    rintro - items ⟨⟩
    exact h
  other _ _ hall := absurd (hall rfl) (Option.some_ne_none xs)

/-- A keyword other than `$ref` and `allOf` has an aimed value. -/
theorem aimedMember_iff (href : key ≠ "$ref") (hall : key ≠ "allOf")
    (hr : Role.ofKeyword? key = some role) :
    AimedMember A p key v ↔ Aimed A (keywordPlace p key) role v := by
  constructor
  · intro h
    exact h.other role hr fun he => absurd he hall
  · intro h
    refine ⟨fun he => absurd he href, fun he => absurd he hall, ?_⟩
    intro role' hr' _
    obtain rfl : role = role' := Option.some.inj (hr.symm.trans hr')
    exact h

theorem AimedMember.of_get? (h : Aimed A p .schema (.obj members))
    (hg : Table.get? members key = some v) : AimedMember A p key v :=
  aimed_schema.mp h key v (Table.mem_of_get? hg)

theorem aimed_insert (h : Aimed A p .schema (.obj members)) (hv : AimedMember A p key v) :
    Aimed A p .schema (.obj (Table.insert members key v)) := by
  rw [aimed_schema] at h ⊢
  intro other w hm
  rcases Table.mem_insert hm with he | hm
  · obtain ⟨rfl, rfl⟩ := Prod.mk.inj he
    exact hv
  · exact h other w hm

theorem aimed_swapErase (h : Aimed A p .schema (.obj members)) (key : String) :
    Aimed A p .schema (.obj (Table.swapErase members key)) := by
  rw [aimed_schema] at h ⊢
  intro other w hm
  exact h other w (Table.mem_swapErase hm)

/-! ## Combining -/

/-- The keywords whose values are combined rather than reduced: no place is followed there. -/
theorem alternative_cases (hk : alternativeKeywords.contains key = true) : key = "enum" ∨
    Role.ofKeyword? key = some .schema ∧ isFollowed key = false ∧ key ≠ "$ref" ∧
      key ≠ "allOf" := by
  simp only [alternativeKeywords, List.contains_iff_mem, List.mem_cons, List.not_mem_nil,
    or_false] at hk
  rcases hk with rfl | rfl | rfl | rfl
  · exact .inl rfl
  · exact .inr ⟨rfl, rfl, by decide, by decide⟩
  · exact .inr ⟨rfl, rfl, by decide, by decide⟩
  · exact .inr ⟨rfl, rfl, by decide, by decide⟩

theorem aimed_sideBySide (ha : Aimed A p .schema a) (hb : Aimed A p .schema b) :
    Aimed A p .schema (sideBySide a b) := by
  refine aimed_schema.mpr fun key v hm => ?_
  obtain ⟨rfl, rfl⟩ := Prod.mk.inj (List.mem_singleton.mp hm)
  refine aimedMember_parts fun x hx => ?_
  rcases List.mem_cons.mp hx with rfl | hx
  · exact ha
  · exact List.mem_singleton.mp hx ▸ hb

theorem aimedMember_type : AimedMember A p "type" v ↔ Aimed A none .schema v :=
  aimedMember_iff (by decide) (by decide) rfl

theorem typeList?_aimed (ha : Aimed A none .schema a) (h : typeList? a = some xs) :
    ∀ x ∈ xs, Aimed A none .schema x := by
  cases a with
  | str name =>
      obtain rfl := Option.some.inj h
      intro x hx
      rw [List.mem_singleton.mp hx]
      exact .scalar rfl rfl
  | arr names =>
      obtain rfl := Option.some.inj h
      exact aimed_list_anywhere.mp ha
  | _ => cases h

theorem intersectTypes?_aimed (ha : Aimed A none .schema a) (h : intersectTypes? a b = some v) :
    Aimed A none .schema v := by
  obtain ⟨names, hnames, h⟩ := Option.bind_eq_some_iff.mp h
  obtain ⟨others, -, h⟩ := Option.bind_eq_some_iff.mp h
  have hcommon : ∀ x ∈ names.filter others.contains, Aimed A none .schema x := by
    intro x hx
    exact typeList?_aimed ha hnames x (List.mem_filter.mp hx).1
  split at h
  · next name hone =>
      obtain rfl := Option.some.inj h
      rw [hone] at hcommon
      split
      · exact hcommon name List.mem_cons_self
      · exact aimed_list_anywhere.mpr hcommon
  · obtain rfl := Option.some.inj h
    exact aimed_list_anywhere.mpr hcommon

theorem combineLimit?_aimed (ha : AimedMember A p key a) (hb : AimedMember A p key b)
    (h : combineLimit? key a b = some v) : AimedMember A p key v := by
  have hside : v = a ∨ v = b → AimedMember A p key v := by
    rintro (rfl | rfl)
    · exact ha
    · exact hb
  unfold combineLimit? at h
  split at h
  · next hk =>
      subst hk
      exact aimedMember_type.mpr (intersectTypes?_aimed (aimedMember_type.mp ha) h)
  split at h
  · next hk =>
      split at h
      · next xs ys =>
          obtain rfl := Option.some.inj h
          have hkeys : key = "allOf" ∨ key = "required" := by
            simpa only [demandKeywords, List.contains_iff_mem, List.mem_cons, List.not_mem_nil,
              or_false] using hk
          rcases hkeys with rfl | rfl
          · refine aimedMember_parts fun x hx => ?_
            rcases List.mem_append.mp hx with hx | hx
            · exact ha.parts rfl xs rfl x hx
            · exact hb.parts rfl ys rfl x (List.mem_filter.mp hx).1
          · exact aimedMember_data rfl
      · cases h
  split at h
  · next hk =>
      split at h
      · obtain rfl := Option.some.inj h
        exact aimedMember_scalar (by rw [hk]; decide) rfl rfl
      · cases h
  split at h
  · next hk =>
      obtain rfl := Option.some.inj h
      exact aimedMember_scalar (by rw [hk]; decide) rfl rfl
  split at h
  · exact hside (tighter?_cases h)
  split at h
  · exact hside (tighter?_cases h)
  · cases h

/-- Combining schemas that together are no larger than the number keeps them aimed. -/
def CombinesAimed (A : Aim) (n : Nat) : Prop :=
  ∀ {p : Option (List String)} {a b : Json}, a.size + b.size ≤ n → Aimed A p .schema a →
    Aimed A p .schema b → Aimed A p .schema (combine a b)

theorem combineEach_aimed {n : Nat} (ih : CombinesAimed A n) (hb : Aimed A p .schema b)
    (hn : Json.sizeItems xs + b.size ≤ n) (hxs : ∀ x ∈ xs, Aimed A p .schema x) :
    ∀ y ∈ combineEach b xs, Aimed A p .schema y := by
  induction xs with
  | nil =>
      rw [combineEach]
      exact fun y hy => absurd hy List.not_mem_nil
  | cons x xs ihxs =>
      rw [combineEach]
      rw [Json.sizeItems] at hn
      intro y hy
      rcases List.mem_cons.mp hy with rfl | hy
      · exact ih (by omega) (hxs x List.mem_cons_self) hb
      · exact ihxs (by omega) (fun z hz => hxs z (List.mem_cons_of_mem _ hz)) y hy

theorem combineKeyword_aimed {n : Nat} (ih : CombinesAimed A n) (hn : a.size + b.size ≤ n)
    (ha : AimedMember A p key a) (hb : AimedMember A p key b)
    (h : combineKeyword key a b = some v) : AimedMember A p key v := by
  unfold combineKeyword at h
  split at h
  · next hk =>
      rcases alternative_cases hk with rfl | ⟨hrole, hfollowed, href, hall⟩
      · exact aimedMember_data rfl
      rw [aimedMember_iff href hall hrole, keywordPlace_of_not_followed _ hfollowed] at ha hb ⊢
      split at h
      · obtain rfl := Option.some.inj h
        refine aimed_list_anywhere.mpr fun x hx => ?_
        exact aimed_list_anywhere.mp ha x (List.mem_filter.mp hx).1
      · obtain rfl := Option.some.inj h
        exact ih hn ha hb
      · next xs second =>
          obtain rfl := Option.some.inj h
          rw [Json.size] at hn
          exact aimed_list_anywhere.mpr
            (combineEach_aimed ih hb (by omega) (aimed_list_anywhere.mp ha))
      · next first ys =>
          obtain rfl := Option.some.inj h
          rw [show Json.size (.arr ys) = 1 + Json.sizeItems ys from rfl] at hn
          exact aimed_list_anywhere.mpr
            (combineEach_aimed ih ha (by omega) (aimed_list_anywhere.mp hb))
      · cases h
  · exact combineLimit?_aimed ha hb h

theorem combineMembers_aimed {n : Nat} (ih : CombinesAimed A n)
    (hfirst : Aimed A p .schema (.obj first)) (hacc : Aimed A p .schema (.obj acc))
    (hsecond : Aimed A p .schema (.obj second))
    (hn : Json.sizeMembers first + Json.sizeMembers second ≤ n)
    (h : combineMembers first acc second = some made) : Aimed A p .schema (.obj made) := by
  induction second generalizing acc with
  | nil =>
      rw [combineMembers] at h
      exact Option.some.inj h ▸ hacc
  | cons entry rest ihrest =>
      obtain ⟨name, value⟩ := entry
      rw [Json.sizeMembers] at hn
      have hmembers := aimed_schema.mp hsecond
      have hvalue := hmembers name value List.mem_cons_self
      have hrest : Aimed A p .schema (.obj rest) := by
        refine aimed_schema.mpr fun key v hm => ?_
        exact hmembers key v (List.mem_cons_of_mem _ hm)
      rw [combineMembers] at h
      split at h
      · exact ihrest (aimed_insert hacc hvalue) hrest (by omega) h
      · next old hold =>
          split at h
          · exact ihrest hacc hrest (by omega) h
          · split at h
            · next both hboth =>
                have hsize := Json.size_le_of_get? hold
                have hmade := combineKeyword_aimed ih (by omega) (.of_get? hfirst hold) hvalue
                  hboth
                exact ihrest (aimed_insert hacc hmade) hrest (by omega) h
            · cases h

theorem combines_aimed (A : Aim) (n : Nat) : CombinesAimed A n := by
  induction n using Nat.strongRecOn with
  | ind n ih =>
      intro p a b hn ha hb
      unfold combine
      split
      · exact hb
      split
      · exact ha
      split
      · next first second _ _ =>
          simp only [Json.size] at hn
          split
          · next members hmembers =>
              exact combineMembers_aimed (ih (n - 1) (by omega)) ha ha hb (by omega) hmembers
          · exact aimed_sideBySide ha hb
      · exact aimed_sideBySide ha hb

theorem combine_aimed (ha : Aimed A p .schema a) (hb : Aimed A p .schema b) :
    Aimed A p .schema (combine a b) :=
  combines_aimed A _ (Nat.le_refl _) ha hb

/-! ## Merging -/

/-- Merging with schemas that are no larger than the number keeps schemas aimed. -/
def MergesAimed (A : Aim) (n : Nat) : Prop :=
  ∀ {p : Option (List String)} {a b : Json}, b.size ≤ n → Aimed A p .schema a →
    Aimed A p .schema b → Aimed A p .schema (merge a b)

theorem settle_aimed {sides : Members × Members} {value : Option Json}
    (hleft : Aimed A p .schema (.obj sides.1)) (hright : Aimed A p .schema (.obj sides.2))
    (hv : ∀ v, value = some v → AimedMember A p key v) :
    Aimed A p .schema (.obj (settle key value sides).1) ∧
      Aimed A p .schema (.obj (settle key value sides).2) := by
  cases value with
  | none => exact ⟨hleft, hright⟩
  | some v => exact ⟨aimed_insert hleft (hv v rfl), aimed_swapErase hright key⟩

theorem mergeEntries_aimed {n : Nat} (ih : MergesAimed A n) (hleft : Aimed A p .map (.obj left))
    (hacc : Aimed A p .map (.obj acc)) (hright : Aimed A p .map (.obj right))
    (hn : Json.sizeMembers right ≤ n) : Aimed A p .map (.obj (mergeEntries left acc right)) := by
  induction right generalizing acc with
  | nil =>
      rw [mergeEntries]
      exact hacc
  | cons entry rest ihrest =>
      obtain ⟨name, value⟩ := entry
      rw [Json.sizeMembers] at hn
      have hentries := aimed_map.mp hright
      have hvalue := hentries name value List.mem_cons_self
      rw [mergeEntries]
      refine ihrest (aimed_map.mpr fun other v hm => ?_)
        (aimed_map.mpr fun other v hm => hentries other v (List.mem_cons_of_mem _ hm)) (by omega)
      rcases Table.mem_insert hm with he | hm
      · obtain ⟨rfl, rfl⟩ := Prod.mk.inj he
        split
        · next old hold =>
            exact ih (by omega) (aimed_map.mp hleft other old (Table.mem_of_get? hold)) hvalue
        · exact hvalue
      · exact aimed_map.mp hacc other v hm

theorem mergeMap?_aimed {n : Nat} (ih : MergesAimed A n) (hkey : key ∈ mergedMaps)
    (hn : Json.sizeMembers second ≤ n) (ha : Aimed A p .schema (.obj first))
    (hb : Aimed A p .schema (.obj second)) (h : mergeMap? key first second = some v) :
    AimedMember A p key v := by
  have hkeys : Role.ofKeyword? key = some .map ∧ key ≠ "$ref" ∧ key ≠ "allOf" := by
    simp only [mergedMaps, List.mem_cons, List.not_mem_nil, or_false] at hkey
    rcases hkey with rfl | rfl | rfl <;> decide
  obtain ⟨hrole, href, hall⟩ := hkeys
  obtain ⟨left, right, hl, hr, rfl⟩ := mergeMap?_eq_some.mp h
  have hsize := Json.size_le_of_get? hr
  rw [Json.size] at hsize
  have hleft := (aimedMember_iff href hall hrole).mp (.of_get? ha hl)
  have hright := (aimedMember_iff href hall hrole).mp (.of_get? hb hr)
  exact (aimedMember_iff href hall hrole).mpr
    (mergeEntries_aimed ih hleft hleft hright (by omega))

theorem aimedMember_items : AimedMember A p "items" v ↔
    Aimed A (placeBelow p "items") .schema v :=
  aimedMember_iff (by decide) (by decide) rfl

theorem mergeItems?_aimed {n : Nat} (ih : MergesAimed A n) (hn : Json.sizeMembers second ≤ n)
    (ha : Aimed A p .schema (.obj first)) (hb : Aimed A p .schema (.obj second))
    (h : mergeItems? first second = some v) : AimedMember A p "items" v := by
  obtain ⟨left, right, hl, hr, rfl⟩ := mergeItems?_eq_some.mp h
  have hsize := Json.size_le_of_get? hr
  have hleft := aimedMember_items.mp (.of_get? ha hl)
  have hright := aimedMember_items.mp (.of_get? hb hr)
  exact aimedMember_items.mpr (ih (by omega) hleft hright)

theorem merges_aimed (A : Aim) (n : Nat) : MergesAimed A n := by
  induction n with
  | zero =>
      intro p a b hn
      have := Json.size_pos b
      omega
  | succ n ih =>
      intro p a b hn ha hb
      rcases merge_cases a b with ⟨-, hmerge⟩ | ⟨first, second, rfl, rfl, hmerge⟩
      · rw [hmerge]
        exact combine_aimed ha hb
      · rw [Json.size] at hn
        have hsize : Json.sizeMembers second ≤ n := by omega
        have hmap : ∀ {key}, key ∈ mergedMaps → ∀ v, mergeMap? key first second = some v →
            AimedMember A p key v := fun hkey v hv => mergeMap?_aimed ih hkey hsize ha hb hv
        have hsides : Aimed A p .schema (.obj (first, second).1) ∧
            Aimed A p .schema (.obj (first, second).2) := ⟨ha, hb⟩
        have h₁ := settle_aimed hsides.1 hsides.2
          (hmap (show "properties" ∈ mergedMaps by decide))
        have h₂ := settle_aimed h₁.1 h₁.2 (hmap (show "patternProperties" ∈ mergedMaps by decide))
        have h₃ := settle_aimed h₂.1 h₂.2 (hmap (show "definitions" ∈ mergedMaps by decide))
        have h₄ := settle_aimed h₃.1 h₃.2 fun v hv => mergeItems?_aimed ih hsize ha hb hv
        rw [hmerge]
        exact combine_aimed h₄.1 h₄.2

theorem merge_aimed (ha : Aimed A p .schema a) (hb : Aimed A p .schema b) :
    Aimed A p .schema (merge a b) :=
  merges_aimed A _ (Nat.le_refl _) ha hb

theorem mergeAll_aimed (h : ∀ x ∈ xs, Aimed A p .schema x) : Aimed A p .schema (mergeAll xs) := by
  have hfold : ∀ {acc : Json}, Aimed A p .schema acc → Aimed A p .schema (xs.foldl merge acc) := by
    induction xs with
    | nil => exact fun hacc => hacc
    | cons x xs ih =>
        intro acc hacc
        exact ih (fun y hy => h y (List.mem_cons_of_mem _ hy))
          (merge_aimed hacc (h x List.mem_cons_self))
  exact hfold (aimed_schema.mpr fun _ _ hm => absurd hm List.not_mem_nil)

theorem collapseAllOf_aimed (h : Aimed A p .schema v) : Aimed A p .schema (collapseAllOf v) := by
  have hmerged : ∀ {members parts}, v = .obj members →
      Table.get? members "allOf" = some (.arr parts) → Aimed A p .schema (mergeAll parts) := by
    rintro members parts rfl hparts
    exact mergeAll_aimed fun x hx => (AimedMember.of_get? h hparts).parts rfl parts rfl x hx
  have hcollapsed := collapsed v
  generalize collapseAllOf v = w at hcollapsed
  cases hcollapsed with
  | kept => exact h
  | alone he hparts => exact hmerged he hparts
  | beside he hparts => exact merge_aimed (hmerged he hparts) (aimed_swapErase (he ▸ h) "allOf")

theorem moveRequired_aimed (h : Aimed A p .schema v) : Aimed A p .schema (moveRequired v) := by
  rcases moveRequired_cases v with he | ⟨members, names, key, items, rfl, hmoves⟩
  · rwa [he]
  · rw [moveRequired_moves hmoves]
    have hkeys : Role.ofKeyword? key = some .schema ∧ key ≠ "$ref" ∧ key ≠ "allOf" := by
      rcases hmoves.keyword with rfl | rfl <;> decide
    obtain ⟨hrole, href, hall⟩ := hkeys
    have hitems := (aimedMember_iff href hall hrole).mp (.of_get? h hmoves.target)
    have hnames : AimedMember A (keywordPlace p key) "required" (.arr names) := aimedMember_data rfl
    have hmoved := aimed_insert hitems hnames
    exact aimed_insert (aimed_swapErase h "required")
      ((aimedMember_iff href hall hrole).mpr hmoved)

end Schema

end SchemaForm
