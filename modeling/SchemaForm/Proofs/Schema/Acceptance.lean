/-
Which values a schema accepts, and how combining changes that.

`accepts v schema` reads the keywords that a schema of `Core` has: types, enumerations,
required names, distinct items, and lists of schemas that all have to accept the value.  An
integer has the types `integer` and `number`.

`accepts_combine_iff`, for schemas of `Core` and any value: the combined schema accepts the
value if and only if both schemas do, and the value is not an integer that one schema takes
as an integer only and the other one as a number only (`Crossed`).  The names of the types
are intersected as names, and so that integer is lost.
-/
import SchemaForm.Proofs.Schema.Keeping

namespace SchemaForm

namespace Json

/-- Whether the value is a number without a fraction. -/
def isInteger : Json → Bool
  | .num (.int _) => true
  | .num (.real x) => x.toInt?.isSome
  | _ => false

/-- The name of the type of a value; of every number `number`. -/
def kind : Json → String
  | .null => "null"
  | .bool _ => "boolean"
  | .num _ => "number"
  | .str _ => "string"
  | .arr _ => "array"
  | .obj _ => "object"

/-- Whether the value has the type of the name. -/
def hasType (v : Json) (name : String) : Bool :=
  v.kind == name || name == "integer" && v.isInteger

/-- Whether no item occurs again further on. -/
def unrepeated : List Json → Bool
  | [] => true
  | x :: xs => !xs.contains x && unrepeated xs

theorem hasType_iff {v : Json} {name : String} :
    v.hasType name ↔ v.kind = name ∨ name = "integer" ∧ v.isInteger := by
  simp only [hasType, Bool.or_eq_true, beq_iff_eq, Bool.and_eq_true]

theorem kind_of_isInteger {v : Json} (h : v.isInteger) : v.kind = "number" := by
  cases v with
  | num n => rfl
  | _ => cases h

theorem hasType_of_isInteger {v : Json} {name : String} (h : v.isInteger) :
    v.hasType name ↔ name = "number" ∨ name = "integer" := by
  rw [hasType_iff, kind_of_isInteger h, and_iff_left h, eq_comm]

/-- A value that is no integer has one type. -/
theorem hasType_unique {v : Json} {name other : String} (hv : ¬v.isInteger)
    (h : v.hasType name) (h' : v.hasType other) : name = other := by
  rw [hasType_iff, or_iff_left fun hi => hv hi.2] at h h'
  exact h.symm.trans h'

end Json

namespace Schema

/-! ## Accepting a value -/

/-- Whether a value satisfies a keyword that holds no schemas. -/
def satisfies (v : Json) (key : String) (value : Json) : Bool :=
  if key = "type" then
    (typeList? value).all fun names => names.any fun name => name.str?.any v.hasType
  else if key = "enum" then value.arr?.all (·.contains v)
  else if key = "required" then
    value.arr?.all fun names => !v.isObj || names.all fun name => name.str?.all v.has
  else if key = "uniqueItems" then value.bool? != some true || v.arr?.all Json.unrepeated
  else true

mutual

/-- Whether a value satisfies every keyword of a schema. -/
def accepts (v : Json) : Json → Bool
  | .obj members => acceptsMembers v members
  | _ => true

def acceptsMembers (v : Json) : List (String × Json) → Bool
  | [] => true
  | (key, value) :: rest => acceptsKeyword v key value && acceptsMembers v rest

/-- Whether a value satisfies a keyword. -/
def acceptsKeyword (v : Json) (key : String) : Json → Bool
  | .arr parts => if key = "allOf" then acceptsAll v parts else satisfies v key (.arr parts)
  | value => satisfies v key value

def acceptsAll (v : Json) : List Json → Bool
  | [] => true
  | part :: parts => accepts v part && acceptsAll v parts

end

/-- The names of types. -/
def typeNames : List String :=
  ["null", "boolean", "object", "array", "number", "string", "integer"]

mutual

/-- An object of the keywords that `accepts` reads, with values they can have. -/
inductive Core : Json → Prop
  | intro {members : Members} :
      (∀ key value, (key, value) ∈ members → CoreKeyword key value) → Core (.obj members)

/-- The value is one that the keyword can have. -/
inductive CoreKeyword : String → Json → Prop
  | type {value : Json} {names : List String} : typeList? value = some (names.map .str) →
      (∀ name ∈ names, name ∈ typeNames) → CoreKeyword "type" value
  | enum (values : List Json) : CoreKeyword "enum" (.arr values)
  | required (names : List String) : CoreKeyword "required" (Json.strs names)
  | uniqueItems (value : Bool) : CoreKeyword "uniqueItems" (.bool value)
  | allOf {parts : List Json} : (∀ part ∈ parts, Core part) → CoreKeyword "allOf" (.arr parts)

end

variable {v a b old value : Json} {key name : String} {members : Members}
  {parts xs ys : List Json}

theorem acceptsMembers_iff :
    acceptsMembers v members ↔ ∀ entry ∈ members, acceptsKeyword v entry.1 entry.2 := by
  induction members with
  | nil => exact ⟨fun _ _ h => absurd h List.not_mem_nil, fun _ => rfl⟩
  | cons entry rest ih =>
      obtain ⟨key, value⟩ := entry
      rw [acceptsMembers, Bool.and_eq_true, ih, List.forall_mem_cons]

theorem acceptsAll_iff : acceptsAll v parts ↔ ∀ part ∈ parts, accepts v part := by
  induction parts with
  | nil => exact ⟨fun _ _ h => absurd h List.not_mem_nil, fun _ => rfl⟩
  | cons part parts ih => rw [acceptsAll, Bool.and_eq_true, ih, List.forall_mem_cons]

theorem acceptsKeyword_allOf : acceptsKeyword v "allOf" (.arr parts) ↔
    ∀ part ∈ parts, accepts v part := by
  rw [acceptsKeyword, if_pos rfl, acceptsAll_iff]

theorem acceptsKeyword_of_ne (h : key ≠ "allOf") :
    acceptsKeyword v key value = satisfies v key value := by
  cases value <;> simp only [acceptsKeyword, h, if_false]

/-- The value satisfies what a schema demands under the name. -/
def Passes (v : Json) (members : Members) (key : String) : Prop :=
  ∀ value, Table.get? members key = some value → acceptsKeyword v key value

theorem accepts_obj (hn : (Table.names members).Nodup) :
    accepts v (.obj members) ↔ ∀ key, Passes v members key := by
  rw [accepts, acceptsMembers_iff]
  constructor
  · exact fun h key value hg => h _ (Table.mem_of_get? hg)
  · exact fun h entry hm => h entry.1 entry.2 (Table.get?_of_mem hn hm)

/-! ## Equal schemas -/

/-- A question that has one answer for equal items has one answer for some item of each list. -/
theorem any_same {f : Json → Bool} (hx : ∀ x ∈ xs, x.Distinct) (hy : ∀ y ∈ ys, y.Distinct)
    (h : List.Forall₂ (fun x y => x.same y) xs ys)
    (hf : ∀ {x y : Json}, x.Distinct → y.Distinct → x.same y → f x = f y) :
    xs.any f = ys.any f := by
  induction h with
  | nil => rfl
  | cons hsame _ ih =>
      rw [List.forall_mem_cons] at hx hy
      rw [List.any_cons, List.any_cons, hf hx.1 hy.1 hsame, ih hx.2 hy.2]

theorem all_same {f : Json → Bool} (hx : ∀ x ∈ xs, x.Distinct) (hy : ∀ y ∈ ys, y.Distinct)
    (h : List.Forall₂ (fun x y => x.same y) xs ys)
    (hf : ∀ {x y : Json}, x.Distinct → y.Distinct → x.same y → f x = f y) :
    xs.all f = ys.all f := by
  rw [List.all_eq_not_any_not, List.all_eq_not_any_not,
    any_same hx hy h fun hx hy hsame => congrArg (!·) (hf hx hy hsame)]

theorem str?_same (h : a.same b) : a.str? = b.str? := by
  cases a with
  | str s => rw [Json.same_str h]
  | _ => cases b <;> first | rfl | cases h

theorem satisfies_same (ha : a.Distinct) (hb : b.Distinct) (h : a.same b) :
    satisfies v key a = satisfies v key b := by
  cases a with
  | arr xs =>
      obtain ⟨ys, rfl, hitems⟩ := Json.same_arr h
      rw [Json.Distinct, Json.distinctItems_iff] at ha hb
      have htypes := any_same (f := fun name => name.str?.any v.hasType) ha hb hitems
        fun _ _ h => by rw [str?_same h]
      have hnames := all_same (f := fun name => name.str?.all v.has) ha hb hitems
        fun _ _ h => by rw [str?_same h]
      have henum : xs.contains v = ys.contains v := by
        rw [List.contains_eq_any_beq, List.contains_eq_any_beq]
        refine any_same ha hb hitems fun hx hy h => Bool.eq_iff_iff.mpr ⟨?_, ?_⟩
        · exact fun hvx => Json.same_trans hvx h
        · exact fun hvy => Json.same_trans hvy (Json.same_symm hx hy h)
      simp only [satisfies, typeList?, Json.arr?, Json.bool?, Option.all_some, htypes, hnames,
        henum]
  | obj ms =>
      obtain ⟨ns, rfl⟩ := Json.same_obj h
      rfl
  | str s => rw [Json.same_str h]
  | bool x =>
      cases b with
      | bool y =>
          rw [Json.same, beq_iff_eq] at h
          rw [h]
      | _ => cases h
  | num m =>
      cases b with
      | num n => rfl
      | _ => cases h
  | null =>
      cases b with
      | null => rfl
      | _ => cases h

mutual

/-- Equal schemas accept the same values. -/
theorem accepts_same : ∀ {a b : Json}, a.Distinct → b.Distinct → a.same b →
    accepts v a = accepts v b
  | .obj ms, b, ha, hb, h => by
      obtain ⟨ns, rfl⟩ := Json.same_obj h
      rw [Bool.eq_iff_iff, accepts_obj ha.1, accepts_obj hb.1]
      refine forall_congr' fun key => ?_
      unfold Passes
      have hrel := (Json.same_obj_iff ha hb).mp h key
      cases hold : Table.get? ms key with
      | none =>
          rw [hold] at hrel
          cases hvalue : Table.get? ns key with
          | none => exact Iff.rfl
          | some value =>
              rw [hvalue] at hrel
              cases hrel
      | some old =>
          rw [hold] at hrel
          cases hvalue : Table.get? ns key with
          | none =>
              rw [hvalue] at hrel
              cases hrel
          | some value =>
              rw [hvalue] at hrel
              cases hrel with
              | some hsame =>
                  have hd := hb.member hvalue
                  have hkey := acceptsEntries_same ha.2 (key, old) (Table.mem_of_get? hold) hd
                    hsame
                  simp only [Option.some.injEq, forall_eq', hkey]
  | .null, b, _, _, h | .bool _, b, _, _, h | .num _, b, _, _, h | .str _, b, _, _, h
  | .arr _, b, _, _, h => by
      cases b <;> first | rfl | cases h

theorem acceptsKeyword_same : ∀ {key : String} {a b : Json}, a.Distinct → b.Distinct →
    a.same b → acceptsKeyword v key a = acceptsKeyword v key b
  | _, .arr xs, b, ha, hb, h => by
      obtain ⟨ys, rfl, -⟩ := Json.same_arr h
      rw [acceptsKeyword, acceptsKeyword, satisfies_same ha hb h, acceptsAll_same ha hb h]
  | _, .null, b, ha, hb, h | _, .bool _, b, ha, hb, h | _, .num _, b, ha, hb, h
  | _, .str _, b, ha, hb, h | _, .obj _, b, ha, hb, h => by
      cases b <;> first | exact satisfies_same ha hb h | cases h

theorem acceptsAll_same : ∀ {xs ys : List Json}, Json.DistinctItems xs →
    Json.DistinctItems ys → Json.sameItems xs ys → acceptsAll v xs = acceptsAll v ys
  | [], [], _, _, _ => rfl
  | x :: xs, y :: ys, hx, hy, h => by
      rw [Json.sameItems, Bool.and_eq_true] at h
      rw [acceptsAll, acceptsAll, accepts_same hx.1 hy.1 h.1, acceptsAll_same hx.2 hy.2 h.2]

theorem acceptsEntries_same : ∀ {ms : List (String × Json)},
    Json.DistinctMembers ms → ∀ entry ∈ ms, ∀ {b : Json}, b.Distinct → entry.2.same b →
      acceptsKeyword v entry.1 entry.2 = acceptsKeyword v entry.1 b
  | [], _, _, hm, _, _, _ => absurd hm List.not_mem_nil
  | (_, _) :: _, hd, entry, hm, _, hb, h => by
      cases List.mem_cons.mp hm with
      | inl he =>
          subst he
          exact acceptsKeyword_same hd.1 hb h
      | inr hm => exact acceptsEntries_same hd.2 entry hm hb h

end

/-! ## The names of types -/

/-- The value of `type` names a type. -/
def Names (value : Json) (name : String) : Prop :=
  ∃ names, typeList? value = some names ∧ .str name ∈ names

/-- The value of `type` takes the numbers of the one name only. -/
def Favours (value : Json) (name other : String) : Prop := Names value name ∧ ¬Names value other

/-- One value takes integers by their own name only, and the other one as numbers only. -/
def CrossedTypes (old value : Json) : Prop :=
  Favours old "integer" "number" ∧ Favours value "number" "integer" ∨
    Favours old "number" "integer" ∧ Favours value "integer" "number"

/-- The types of the two schemas are crossed. -/
def Crossed (a b : Json) : Prop :=
  ∃ old value, a.get? "type" = some old ∧ b.get? "type" = some value ∧ CrossedTypes old value

theorem names_iff {names : List String} (h : typeList? value = some (names.map .str)) :
    Names value name ↔ name ∈ names := by
  simp only [Names, h, Option.some.injEq, exists_eq_left', List.mem_map, Json.str.injEq,
    exists_eq_right]

theorem acceptsKeyword_type {names : List String} (h : typeList? value = some (names.map .str)) :
    acceptsKeyword v "type" value ↔ ∃ name ∈ names, v.hasType name := by
  rw [acceptsKeyword_of_ne (by decide)]
  simp only [satisfies, if_true, h, Option.all_some, List.any_map, List.any_eq_true,
    Function.comp_apply, Json.str?, Option.any_some]

theorem Names.same (h : Names old name) (hsame : old.same value) : Names value name := by
  obtain ⟨names, hnames, hname⟩ := h
  cases old with
  | str s =>
      rw [Json.same_str hsame]
      exact ⟨names, hnames, hname⟩
  | arr xs =>
      obtain rfl := Option.some.inj hnames
      obtain ⟨ys, rfl, hitems⟩ := Json.same_arr hsame
      obtain ⟨y, hy, hsame⟩ := Json.forall₂_mem hitems hname
      exact ⟨ys, rfl, Json.same_str hsame ▸ hy⟩
  | _ => cases hnames

theorem intersectTypes?_eq_some {names others : List String}
    (ha : typeList? a = some (names.map .str)) (hb : typeList? b = some (others.map .str)) :
    ∃ both, intersectTypes? a b = some both ∧
      typeList? both = some ((names.filter others.contains).map .str) := by
  have hcommon : (names.map Json.str).filter (others.map Json.str).contains =
      (names.filter others.contains).map .str := by
    have hone : ∀ name, (others.map Json.str).contains (.str name) = others.contains name := by
      intro name
      rw [List.contains_eq_any_beq, List.contains_eq_any_beq, List.any_map]
      rfl
    rw [List.filter_map]
    exact congrArg (List.map Json.str) (List.filter_congr fun name _ => hone name)
  simp only [intersectTypes?, ha, hb, hcommon, Option.bind_eq_bind, Option.bind_some]
  split
  · next both hboth =>
      refine ⟨_, rfl, ?_⟩
      rw [hboth]
      obtain ⟨name, -, rfl⟩ := List.mem_map.mp (hboth ▸ List.mem_singleton_self both)
      split <;> rfl
  · exact ⟨_, rfl, rfl⟩

/-- Two lists of type names have a name of the value's types in common when each of them has
one, unless only its being an integer gives one of them its name. -/
theorem common_iff {names others : List String} :
    (∃ name ∈ names, name ∈ others ∧ v.hasType name) ↔
      ((∃ name ∈ names, v.hasType name) ∧ ∃ other ∈ others, v.hasType other) ∧
        ¬(v.isInteger ∧
          (("integer" ∈ names ∧ "number" ∉ names) ∧ "number" ∈ others ∧ "integer" ∉ others ∨
          ("number" ∈ names ∧ "integer" ∉ names) ∧ "integer" ∈ others ∧ "number" ∉ others)) := by
  by_cases hv : v.isInteger
  · simp only [Json.hasType_of_isInteger hv, hv, true_and]
    have hnumbers : ∀ {P : String → Prop},
        (∃ name, P name ∧ (name = "number" ∨ name = "integer")) ↔ P "number" ∨ P "integer" := by
      intro P
      simp only [and_or_left, exists_or, exists_eq_right]
    simp only [← and_assoc, hnumbers]
    tauto
  · rw [and_iff_left fun h => hv h.1]
    constructor
    · rintro ⟨name, hname, hother, htype⟩
      exact ⟨⟨name, hname, htype⟩, name, hother, htype⟩
    · rintro ⟨⟨name, hname, htype⟩, other, hother, htype'⟩
      exact ⟨name, hname, Json.hasType_unique hv htype htype' ▸ hother, htype⟩

/-! ## Both values of a keyword -/

theorem not_crossedTypes_of_same (h : old.same value) : ¬CrossedTypes old value := by
  rintro (⟨ho, hv⟩ | ⟨ho, hv⟩)
  · exact hv.2 (ho.1.same h)
  · exact hv.2 (ho.1.same h)

/-- What is made of a keyword's two values demands what both do. -/
def Blends (v : Json) (key : String) (old value both : Json) : Prop :=
  acceptsKeyword v key both ↔ acceptsKeyword v key old ∧ acceptsKeyword v key value

theorem both_enum (hv : v.Distinct) (hx : ∀ x ∈ xs, x.Distinct) :
    Blends v "enum" (.arr xs) (.arr ys) (.arr (intersection xs ys)) := by
  have henum : ∀ zs, acceptsKeyword v "enum" (.arr zs) ↔ ∃ z ∈ zs, v.same z := fun zs => by
    rw [← Json.contains_iff]
    rfl
  rw [Blends, henum, henum, henum]
  simp only [intersection, List.mem_filter]
  constructor
  · rintro ⟨x, ⟨hxs, hys⟩, hvx⟩
    obtain ⟨y, hy, hxy⟩ := Json.contains_iff.mp hys
    exact ⟨⟨x, hxs, hvx⟩, y, hy, Json.same_trans hvx hxy⟩
  · rintro ⟨⟨x, hxs, hvx⟩, y, hy, hvy⟩
    have hxv := Json.same_symm hv (hx x hxs) hvx
    exact ⟨x, ⟨hxs, Json.contains_iff.mpr ⟨y, hy, Json.same_trans hxv hvy⟩⟩, hvx⟩

theorem both_required {names others : List String} :
    Blends v "required" (Json.strs names) (Json.strs others)
      (.arr (union (names.map .str) (others.map .str))) := by
  have hall : ∀ zs, acceptsKeyword v "required" (.arr zs) ↔
      v.isObj → ∀ z ∈ zs, z.str?.all v.has := fun zs => by
    have hread : acceptsKeyword v "required" (.arr zs) =
      (!v.isObj || zs.all fun name => name.str?.all v.has) := rfl
    rw [hread, Bool.or_eq_true, Bool.not_eq_true', List.all_eq_true, ← Bool.not_eq_true,
      ← imp_iff_not_or]
  rw [Blends, Json.strs, Json.strs, hall, hall, hall, ← imp_and]
  refine imp_congr_right fun _ => ?_
  constructor
  · refine fun h => ⟨fun z hz => h z (mem_union_iff.mpr (.inl hz)), fun z hz => ?_⟩
    by_cases hfirst : ∃ w ∈ names.map Json.str, z.same w
    · obtain ⟨w, hw, hsame⟩ := hfirst
      rw [str?_same hsame]
      exact h w (mem_union_iff.mpr (.inl hw))
    · exact h z (mem_union_iff.mpr (.inr ⟨hz, hfirst⟩))
  · rintro ⟨hfirst, hsecond⟩ z hz
    cases mem_union_iff.mp hz with
    | inl hz => exact hfirst z hz
    | inr hz => exact hsecond z hz.1

theorem both_uniqueItems (x y : Bool) :
    Blends v "uniqueItems" (.bool x) (.bool y)
      (.bool (isTruthy (.bool x) || isTruthy (.bool y))) := by
  have hread : ∀ z, acceptsKeyword v "uniqueItems" (.bool z) ↔
      (z → v.arr?.all Json.unrepeated) := fun z => by
    have hread : acceptsKeyword v "uniqueItems" (.bool z) =
      (some z != some true || v.arr?.all Json.unrepeated) := rfl
    rw [hread]
    cases z <;> simp
  rw [Blends, hread, hread, hread, isTruthy, isTruthy, Bool.or_eq_true]
  tauto

theorem both_allOf (hx : ∀ x ∈ xs, x.Distinct) (hy : ∀ y ∈ ys, y.Distinct) :
    Blends v "allOf" (.arr xs) (.arr ys) (.arr (union xs ys)) := by
  rw [Blends, acceptsKeyword_allOf, acceptsKeyword_allOf, acceptsKeyword_allOf]
  constructor
  · refine fun h => ⟨fun x hxs => h x (mem_union_iff.mpr (.inl hxs)), fun y hys => ?_⟩
    by_cases hfirst : ∃ x ∈ xs, y.same x
    · obtain ⟨x, hxs, hsame⟩ := hfirst
      rw [accepts_same (hy y hys) (hx x hxs) hsame]
      exact h x (mem_union_iff.mpr (.inl hxs))
    · exact h y (mem_union_iff.mpr (.inr ⟨hys, hfirst⟩))
  · rintro ⟨hfirst, hsecond⟩ z hz
    cases mem_union_iff.mp hz with
    | inl hz => exact hfirst z hz
    | inr hz => exact hsecond z hz.1

theorem both_type {names others : List String}
    (ho : typeList? old = some (names.map .str)) (hn : typeList? value = some (others.map .str)) :
    ∃ both, intersectTypes? old value = some both ∧ (acceptsKeyword v "type" both ↔
      (acceptsKeyword v "type" old ∧ acceptsKeyword v "type" value) ∧
        ¬(CrossedTypes old value ∧ v.isInteger)) := by
  obtain ⟨both, hboth, hlist⟩ := intersectTypes?_eq_some ho hn
  refine ⟨both, hboth, ?_⟩
  rw [acceptsKeyword_type hlist, acceptsKeyword_type ho, acceptsKeyword_type hn, CrossedTypes,
    Favours, Favours, Favours, Favours, names_iff ho, names_iff ho, names_iff hn, names_iff hn,
    and_comm (b := v.isInteger = true), ← common_iff]
  simp only [List.mem_filter, List.contains_iff_mem, and_assoc]

theorem combineKeyword_core {other : String} (hold : CoreKeyword key old)
    (hvalue : CoreKeyword other value) (hk : key = other) (hv : v.Distinct) (ho : old.Distinct)
    (hd : value.Distinct) :
    ∃ both, combineKeyword key old value = some both ∧ (acceptsKeyword v key both ↔
      (acceptsKeyword v key old ∧ acceptsKeyword v key value) ∧
        ¬(key = "type" ∧ CrossedTypes old value ∧ v.isInteger)) := by
  have hplain : ∀ {both}, combineKeyword key old value = some both → key ≠ "type" →
      Blends v key old value both → ∃ both, combineKeyword key old value = some both ∧
        (acceptsKeyword v key both ↔ (acceptsKeyword v key old ∧ acceptsKeyword v key value) ∧
          ¬(key = "type" ∧ CrossedTypes old value ∧ v.isInteger)) := by
    intro both hmade hkey hblends
    exact ⟨both, hmade, hblends.trans (and_iff_left fun h => hkey h.1).symm⟩
  cases hold with
  | type ho _ =>
      cases hvalue with
      | type hn _ =>
          obtain ⟨both, hmade, hiff⟩ := both_type (v := v) ho hn
          refine ⟨both, ?_, by simpa only [true_and] using hiff⟩
          rw [combineKeyword_of_not_alternative (by decide)]
          exact hmade
      | _ => exact absurd hk (by decide)
  | enum xs =>
      cases hvalue with
      | enum ys =>
          refine hplain ?_ (by decide) (both_enum hv (Json.distinctItems_iff.mp ho))
          simp [combineKeyword, alternativeKeywords]
      | _ => exact absurd hk (by decide)
  | required names =>
      cases hvalue with
      | required others =>
          refine hplain ?_ (by decide) both_required
          simp [combineKeyword, combineLimit?, alternativeKeywords, demandKeywords, Json.strs]
      | _ => exact absurd hk (by decide)
  | uniqueItems x =>
      cases hvalue with
      | uniqueItems y =>
          refine hplain ?_ (by decide) (both_uniqueItems x y)
          simp [combineKeyword, combineLimit?, alternativeKeywords, demandKeywords]
      | _ => exact absurd hk (by decide)
  | allOf hx =>
      cases hvalue with
      | allOf hy =>
          refine hplain ?_ (by decide)
            (both_allOf (Json.distinctItems_iff.mp ho) (Json.distinctItems_iff.mp hd))
          simp [combineKeyword, combineLimit?, alternativeKeywords, demandKeywords]
      | _ => exact absurd hk (by decide)

/-- Any two values of a keyword can be made one that demands what both do, but for types. -/
theorem both?_core (hold : CoreKeyword key old) (hvalue : CoreKeyword key value)
    (hv : v.Distinct) (ho : old.Distinct) (hd : value.Distinct) :
    ∃ both, both? key old value = some both ∧ (acceptsKeyword v key both ↔
      (acceptsKeyword v key old ∧ acceptsKeyword v key value) ∧
        ¬(key = "type" ∧ CrossedTypes old value ∧ v.isInteger)) := by
  by_cases hsame : old.same value
  · refine ⟨old, if_pos hsame, ?_⟩
    rw [← acceptsKeyword_same ho hd hsame, and_self,
      and_iff_left fun h => not_crossedTypes_of_same hsame h.2.1]
  · rw [show both? key old value = combineKeyword key old value from if_neg hsame]
    exact combineKeyword_core hold hvalue rfl hv ho hd

/-! ## Both schemas -/

theorem Core.keyword (h : Core a) (hk : a.get? key = some value) : CoreKeyword key value := by
  cases h with
  | intro hmembers => exact hmembers key value (Table.mem_of_get? hk)

theorem Core.eq_obj (h : Core a) : ∃ members, a = .obj members := by
  cases h with
  | intro _ => exact ⟨_, rfl⟩

theorem Core.isEmpty (h : Core a) (he : a.isEmpty) : a = .obj [] := by
  cases h with
  | intro _ => rw [List.isEmpty_iff.mp he]

theorem passes_blend {first second made : Members} (ha : Core (.obj first))
    (hb : Core (.obj second)) (hda : (Json.obj first).Distinct) (hdb : (Json.obj second).Distinct)
    (hv : v.Distinct) (hmade : Table.get? made key =
      blend key (Table.get? first key) (Table.get? second key)) :
    Passes v made key ↔ (Passes v first key ∧ Passes v second key) ∧
      ¬(key = "type" ∧ Crossed (.obj first) (.obj second) ∧ v.isInteger) := by
  unfold Passes
  rw [hmade]
  cases hold : Table.get? first key with
  | none =>
      have hcrossed : ¬(key = "type" ∧ Crossed (.obj first) (.obj second) ∧ v.isInteger) := by
        rintro ⟨rfl, ⟨old, _, h, -⟩, -⟩
        rw [Json.get?, hold] at h
        cases h
      simp [blend, hcrossed]
  | some old =>
      cases hvalue : Table.get? second key with
      | none =>
          have hcrossed :
              ¬(key = "type" ∧ Crossed (.obj first) (.obj second) ∧ v.isInteger) := by
            rintro ⟨rfl, ⟨_, value, -, h, -⟩, -⟩
            rw [Json.get?, hvalue] at h
            cases h
          simp [blend, hcrossed]
      | some value =>
          obtain ⟨both, hboth, hiff⟩ := both?_core (ha.keyword hold) (hb.keyword hvalue) hv
            (hda.member hold)
            (hdb.member hvalue)
          have hcrossed : key = "type" →
              (Crossed (.obj first) (.obj second) ↔ CrossedTypes old value) := by
            rintro rfl
            simp only [Crossed, Json.get?, hold, hvalue, Option.some.injEq, exists_and_left,
              exists_eq_left']
          simp only [blend, hboth, Option.some.injEq, forall_eq', hiff]
          tauto

/-- A combined schema accepts what both accept, but for an integer whose types are crossed. -/
theorem accepts_combine_iff (ha : Core a) (hb : Core b) (hda : a.Distinct) (hdb : b.Distinct)
    (hv : v.Distinct) : accepts v (combine a b) ↔
      (accepts v a ∧ accepts v b) ∧ ¬(Crossed a b ∧ v.isInteger) := by
  have hjoined := combine_joined (a := a) hdb
  have hdistinct := combine_distinct hda hdb
  generalize combine a b = both at hjoined hdistinct
  cases hjoined with
  | right he =>
      obtain rfl := ha.isEmpty he
      have hcrossed : ¬Crossed (.obj []) b := fun ⟨_, _, h, _⟩ => by cases h
      have hall : accepts v (.obj []) := rfl
      tauto
  | left _ he =>
      obtain rfl := hb.isEmpty he
      have hcrossed : ¬Crossed a (.obj []) := fun ⟨_, _, _, h, _⟩ => by cases h
      have hall : accepts v (.obj []) := rfl
      tauto
  | apart _ _ hapart =>
      obtain ⟨first, rfl⟩ := ha.eq_obj
      obtain ⟨second, rfl⟩ := hb.eq_obj
      -- no keyword of the two keeps them apart
      obtain ⟨key, old, value, hold, hvalue, hnone⟩ := hapart _ _ rfl rfl
      obtain ⟨both, hboth, -⟩ := both?_core (ha.keyword hold) (hb.keyword hvalue) hv
        (hda.member hold)
        (hdb.member hvalue)
      rw [hnone] at hboth
      cases hboth
  | @blended first second made hea heb _ _ hmade _ =>
      subst hea heb
      rw [accepts_obj hdistinct.1, accepts_obj hda.1, accepts_obj hdb.1]
      have hkey := fun key => passes_blend ha hb hda hdb hv (hmade key)
      simp only [hkey, forall_and]
      exact and_congr_right fun _ =>
        ⟨fun h hc => h "type" ⟨rfl, hc⟩, fun h key hc => h hc.2⟩

/-- The schema of a type. -/
def ofType (name : String) : Json := .obj [("type", .str name)]

theorem core_ofType (h : name ∈ typeNames) : Core (ofType name) := by
  refine .intro fun key value hm => ?_
  obtain ⟨rfl, rfl⟩ := Prod.mk.inj (List.mem_singleton.mp hm)
  have hlist : typeList? (.str name) = some ([name].map .str) := rfl
  refine .type hlist fun other hother => ?_
  exact List.mem_singleton.mp hother ▸ h

theorem distinct_ofType (name : String) : (ofType name).Distinct :=
  ⟨List.nodup_singleton _, trivial, trivial⟩

/-- An integer that is a number too is taken by both types, and by their combination not. -/
theorem accepts_combine_iff_one :
    Core (ofType "integer") ∧ Core (ofType "number") ∧
      Crossed (ofType "integer") (ofType "number") ∧
      ¬accepts (.num (.int 1)) (combine (ofType "integer") (ofType "number")) := by
  have hinteger : Core (ofType "integer") := core_ofType (by decide)
  have hnumber : Core (ofType "number") := core_ofType (by decide)
  have hnames : ∀ name other, Names (.str name) other ↔ other = name := fun name other => by
    have hlist : typeList? (.str name) = some ([name].map .str) := rfl
    rw [names_iff hlist, List.mem_singleton]
  have hcrossed : Crossed (ofType "integer") (ofType "number") := by
    refine ⟨.str "integer", .str "number", rfl, rfl, .inl ?_⟩
    simp only [Favours, hnames]
    decide
  refine ⟨hinteger, hnumber, hcrossed, fun h => ?_⟩
  exact ((accepts_combine_iff hinteger hnumber (distinct_ofType _) (distinct_ofType _)
    (v := .num (.int 1)) trivial).mp h).2 ⟨hcrossed, rfl⟩

theorem combine_integer_number :
    combine (ofType "integer") (ofType "number") = .obj [("type", .arr [])] := by
  have hboth : combineKeyword "type" (.str "integer") (.str "number") = some (.arr []) := by
    rw [combineKeyword_of_not_alternative (by decide)]
    rfl
  have hmembers : combineMembers [("type", .str "integer")] [("type", .str "integer")]
      [("type", .str "number")] = some [("type", .arr [])] := by
    simp [combineMembers, Table.get?, Table.insert, hboth, Json.beq_def, Json.same]
  simp [combine, ofType, Json.isEmpty, hmembers]

theorem not_accepts_combine :
    Core (ofType "integer") ∧ Core (ofType "number") ∧
      accepts (.num (.int 1)) (ofType "integer") ∧ accepts (.num (.int 1)) (ofType "number") ∧
      ¬accepts (.num (.int 1)) (combine (ofType "integer") (ofType "number")) := by
  refine ⟨core_ofType (by decide), core_ofType (by decide), ?_⟩
  rw [combine_integer_number]
  decide

end Schema

end SchemaForm
