/-
Merging schemas in any order.

Schemas of types, flags, item schemas and maps of such schemas have nothing to disagree on but
their types, and types that differ leave the empty list (`ConflictFree`).  Merging two of them makes
one value of the two under every name (`get?_unite`), and a schema of the same kind
(`ConflictFree.united`).  So at every path of what is merged there stands what is made of the two
things that stand there (`mark?_unite`): an object of two objects, the name of a type of that name
twice, a flag of two flags.  That is commutative and associative, and values with the same at every
path are equal (`same_of_mark?`).  So neither the order of the schemas nor the way in which they are
grouped matters (`mergeAll_perm`).
-/
import Mathlib.Data.List.Perm.Basic
import SchemaForm.Proofs.Schema.Keeping

namespace SchemaForm

namespace Schema

variable {a b v : Json} {first second members : Members} {key : String} {xs : List Json}

/-! ## Schemas without conflicts -/

/-- What a value within a schema is. -/
inductive Part where
  | schema
  | entries
  | type
  | flag
deriving DecidableEq

/-- What the value of a keyword is. -/
def keywordPart? (key : String) : Option Part :=
  if key = "items" then some .schema
  else if key ∈ mergedMaps then some .entries
  else if key = "type" then some .type
  else if key = "uniqueItems" then some .flag
  else none

/-- What the value of a member is. -/
def Part.member? : Part → String → Option Part
  | .schema, key => keywordPart? key
  | .entries, _ => some .schema
  | .type, _ | .flag, _ => none

/-- A schema of types, flags, item schemas and maps of schemas, and what stands within one.  A type
is one name, or the empty list that names leave which differ. -/
inductive ConflictFree : Part → Json → Prop
  | name (s : String) : ConflictFree .type (.str s)
  | noName : ConflictFree .type (.arr [])
  | flag (x : Bool) : ConflictFree .flag (.bool x)
  | obj {part : Part} {members : Members} : part = .schema ∨ part = .entries →
      (Table.names members).Nodup →
      (∀ key v, Table.get? members key = some v → (part.member? key).isSome = true) →
      (∀ key v below, Table.get? members key = some v → part.member? key = some below →
        ConflictFree below v) →
      ConflictFree part (.obj members)

variable {part below : Part}

theorem ConflictFree.member (h : ConflictFree part (.obj members))
    (hv : Table.get? members key = some v) :
    ∃ below, part.member? key = some below ∧ ConflictFree below v := by
  cases h with
  | obj _ _ hknown hbelow =>
      obtain ⟨below, hpart⟩ := Option.isSome_iff_exists.mp (hknown key v hv)
      exact ⟨below, hpart, hbelow key v below hv hpart⟩

/-- Under a name that two objects of one kind have, their values are of one kind. -/
theorem ConflictFree.both (ha : ConflictFree part (.obj first))
    (hb : ConflictFree part (.obj second)) (hold : Table.get? first key = some a)
    (hvalue : Table.get? second key = some b) :
    ∃ below, part.member? key = some below ∧ ConflictFree below a ∧ ConflictFree below b := by
  obtain ⟨below, hbelow, hbefore⟩ := ha.member hold
  obtain ⟨other, hother, hafter⟩ := hb.member hvalue
  obtain rfl : below = other := Option.some.inj (hbelow.symm.trans hother)
  exact ⟨below, hbelow, hbefore, hafter⟩

theorem ConflictFree.of_member (hpart : part = .schema ∨ part = .entries)
    (hn : (Table.names members).Nodup)
    (h : ∀ entry ∈ members, ∃ below, part.member? entry.1 = some below ∧
      ConflictFree below entry.2) : ConflictFree part (.obj members) := by
  refine .obj hpart hn (fun key v hv => ?_) fun key v below hv hbelow => ?_
  · obtain ⟨below, hbelow, -⟩ := h _ (Table.mem_of_get? hv)
    rw [hbelow]
    rfl
  · obtain ⟨other, hother, hv⟩ := h _ (Table.mem_of_get? hv)
    obtain rfl := Option.some.inj (hother.symm.trans hbelow)
    exact hv

theorem ConflictFree.eq_obj (h : ConflictFree part v) (hpart : part = .schema ∨ part = .entries) :
    ∃ members, v = .obj members := by
  cases h with
  | obj => exact ⟨_, rfl⟩
  | name | noName | flag => rcases hpart with hpart | hpart <;> cases hpart

theorem ConflictFree.type_cases (h : ConflictFree .type v) : (∃ s, v = .str s) ∨ v = .arr [] := by
  cases h with
  | name s => exact .inl ⟨s, rfl⟩
  | noName => exact .inr rfl
  | obj hpart => rcases hpart with hpart | hpart <;> cases hpart

theorem ConflictFree.flag_cases (h : ConflictFree .flag v) : ∃ x, v = .bool x := by
  cases h with
  | flag x => exact ⟨x, rfl⟩
  | obj hpart => rcases hpart with hpart | hpart <;> cases hpart

theorem ConflictFree.distinct (h : ConflictFree part v) : v.Distinct := by
  induction h with
  | name | noName | flag => trivial
  | obj _ hn hknown _ ih =>
      refine ⟨hn, Json.distinctMembers_iff.mpr fun entry hm => ?_⟩
      have hv := Table.get?_of_mem hn hm
      obtain ⟨below, hbelow⟩ := Option.isSome_iff_exists.mp (hknown _ _ hv)
      exact ih _ _ below hv hbelow

/-! ## Two values made one -/

/-- What is made of two values. -/
def unite : Part → Json → Json → Json
  | .schema, a, b => merge a b
  | .entries, .obj left, .obj right => .obj (mergeEntries left left right)
  | .entries, a, _ => a
  | .type, a, b => if a == b then a else .arr []
  | .flag, a, b => .bool (isTruthy a || isTruthy b)

theorem both?_type (ha : ConflictFree .type a) (hb : ConflictFree .type b) :
    both? "type" a b = some (unite .type a b) := by
  rw [both?, unite]
  split
  · rfl
  · next hdiffer =>
      rw [combineKeyword_of_not_alternative (by decide)]
      show intersectTypes? a b = some (.arr [])
      rcases ha.type_cases with ⟨s, rfl⟩ | rfl <;> rcases hb.type_cases with ⟨t, rfl⟩ | rfl
      · have hst : s ≠ t := fun he => hdiffer (he ▸ beq_self_eq_true s)
        have hcontains : [Json.str t].contains (.str s) = false := by
          rw [← Bool.not_eq_true, Json.contains_iff]
          rintro ⟨x, hx, hsame⟩
          obtain rfl := List.mem_singleton.mp hx
          exact hst (Json.str.inj (Json.same_str hsame)).symm
        simp [intersectTypes?, typeList?, hcontains]
      · rfl
      · rfl
      · rfl

theorem both?_flag (ha : ConflictFree .flag a) (hb : ConflictFree .flag b) :
    both? "uniqueItems" a b = some (unite .flag a b) := by
  obtain ⟨x, rfl⟩ := ha.flag_cases
  obtain ⟨y, rfl⟩ := hb.flag_cases
  rw [both?, combineKeyword_of_not_alternative (by decide)]
  cases x <;> cases y <;> rfl

theorem keywordPart?_cases (h : keywordPart? key = some part) :
    key = "items" ∧ part = .schema ∨ key ∈ mergedMaps ∧ part = .entries ∨
      key = "type" ∧ part = .type ∨ key = "uniqueItems" ∧ part = .flag := by
  unfold keywordPart? at h
  split at h
  · next hitems => exact .inl ⟨hitems, (Option.some.inj h).symm⟩
  split at h
  · next hmaps => exact .inr (.inl ⟨hmaps, (Option.some.inj h).symm⟩)
  split at h
  · next htype => exact .inr (.inr (.inl ⟨htype, (Option.some.inj h).symm⟩))
  split at h
  · next hflag => exact .inr (.inr (.inr ⟨hflag, (Option.some.inj h).symm⟩))
  · cases h

theorem joint?_eq_none (h : Table.get? first key = none ∨ Table.get? second key = none) :
    joint? first second key = none := by
  rw [Option.eq_none_iff_forall_not_mem]
  intro v hv
  obtain ⟨left, right, hleft, hright, -⟩ := joint?_eq_some.mp hv
  rcases h with h | h
  · rw [h] at hleft
    cases hleft
  · rw [h] at hright
    cases hright

/-- What merging hands on to combining makes one of the two values of every keyword. -/
theorem blend_sides (ha : ConflictFree .schema (.obj first))
    (hb : ConflictFree .schema (.obj second)) (key : String) :
    blend key (Table.get? (sides first second).1 key) (Table.get? (sides first second).2 key) =
      Option.merge (unite ((keywordPart? key).getD .schema)) (Table.get? first key)
        (Table.get? second key) := by
  rw [get?_sides_left, get?_sides_right hb.distinct.1]
  cases hold : Table.get? first key with
  | none =>
      rw [joint?_eq_none (.inl hold)]
      cases Table.get? second key <;> rfl
  | some old =>
      cases hvalue : Table.get? second key with
      | none =>
          rw [joint?_eq_none (.inr hvalue)]
          rfl
      | some value =>
          obtain ⟨below, hmember, hbefore, hafter⟩ := ha.both hb hold hvalue
          have hpart : keywordPart? key = some below := hmember
          rw [hpart]
          -- schemas and maps of them are merged before the combining, and the rest is left to it
          rcases keywordPart?_cases hpart with ⟨rfl, rfl⟩ | ⟨hmaps, rfl⟩ | ⟨rfl, rfl⟩ | ⟨rfl, rfl⟩
          · obtain ⟨left, rfl⟩ := hbefore.eq_obj (.inl rfl)
            obtain ⟨right, rfl⟩ := hafter.eq_obj (.inl rfl)
            rw [joint?_eq_some.mpr ⟨left, right, hold, hvalue, .inl ⟨rfl, rfl⟩⟩]
            rfl
          · obtain ⟨left, rfl⟩ := hbefore.eq_obj (.inr rfl)
            obtain ⟨right, rfl⟩ := hafter.eq_obj (.inr rfl)
            rw [joint?_eq_some.mpr ⟨left, right, hold, hvalue, .inr ⟨hmaps, rfl⟩⟩]
            rfl
          · exact both?_type hbefore hafter
          · exact both?_flag hbefore hafter

theorem combine_blend (hd : (Json.obj second).Distinct)
    (hboth : ∀ key old value, Table.get? first key = some old →
      Table.get? second key = some value → (both? key old value).isSome = true) :
    ∃ made, combine (.obj first) (.obj second) = .obj made ∧
      ∀ key, Table.get? made key = blend key (Table.get? first key) (Table.get? second key) := by
  have hjoined := combine_joined (a := .obj first) hd
  generalize combine (.obj first) (.obj second) = both at hjoined
  cases hjoined with
  | right hempty =>
      obtain rfl := List.isEmpty_iff.mp hempty
      exact ⟨second, rfl, fun _ => rfl⟩
  | left _ hempty =>
      obtain rfl := List.isEmpty_iff.mp hempty
      refine ⟨first, rfl, fun key => ?_⟩
      cases Table.get? first key <;> rfl
  | @blended _ _ made hea heb _ _ hmade =>
      cases hea
      cases heb
      exact ⟨made, rfl, hmade⟩
  | apart _ _ hapart =>
      obtain ⟨key, old, value, hold, hvalue, hnone⟩ := hapart first second rfl rfl
      have hsome := hboth key old value hold hvalue
      rw [hnone] at hsome
      cases hsome

theorem get?_merge (ha : ConflictFree .schema (.obj first))
    (hb : ConflictFree .schema (.obj second)) :
    ∃ made, merge (.obj first) (.obj second) = .obj made ∧
      ∀ key, Table.get? made key = Option.merge (unite ((keywordPart? key).getD .schema))
        (Table.get? first key) (Table.get? second key) := by
  obtain ⟨-, hright⟩ := sides_distinct ha.distinct hb.distinct
  have hboth : ∀ key old value, Table.get? (sides first second).1 key = some old →
      Table.get? (sides first second).2 key = some value → (both? key old value).isSome = true := by
    intro key old value hold hvalue
    have hsecond : Table.get? second key ≠ none := by
      intro hnone
      rw [get?_sides_right hb.distinct.1, hnone, ite_self] at hvalue
      cases hvalue
    have hblend := blend_sides ha hb key
    rw [hold, hvalue] at hblend
    rw [Option.isSome_iff_ne_none]
    intro hnone
    exact hsecond (Option.merge_eq_none_iff.mp (hblend.symm.trans hnone)).2
  obtain ⟨made, hmade, hget⟩ := combine_blend hright hboth
  refine ⟨made, (merge_obj first second).trans hmade, fun key => ?_⟩
  rw [hget, blend_sides ha hb]

/-- Under every name both objects' members are made one, as the name says. -/
theorem get?_unite (hpart : part = .schema ∨ part = .entries) (ha : ConflictFree part (.obj first))
    (hb : ConflictFree part (.obj second)) :
    ∃ made, unite part (.obj first) (.obj second) = .obj made ∧ (Table.names made).Nodup ∧
      ∀ key, Table.get? made key = Option.merge (unite ((part.member? key).getD .schema))
        (Table.get? first key) (Table.get? second key) := by
  rcases hpart with rfl | rfl
  · obtain ⟨made, hmade, hget⟩ := get?_merge ha hb
    have hd := merge_distinct ha.distinct hb.distinct
    rw [hmade] at hd
    exact ⟨made, hmade, hd.1, hget⟩
  · have hfirst := Json.distinct_iff.mp ha.distinct
    have hd := Json.distinct_iff.mpr (mergeEntries_everywhere hereditary_nodup
      (merges_keep hereditary_nodup _) hfirst hfirst (Json.distinct_iff.mp hb.distinct)
      (List.Subset.refl _) (Nat.le_refl _))
    refine ⟨mergeEntries first first second, rfl, hd.1, fun key => ?_⟩
    rw [get?_mergeEntries hb.distinct.1]
    cases Table.get? first key <;> cases Table.get? second key <;> rfl

theorem ConflictFree.united (ha : ConflictFree part a) (hb : ConflictFree part b) :
    ConflictFree part (unite part a b) := by
  induction ha generalizing b with
  | name | noName =>
      rw [unite]
      split
      · constructor
      · exact .noName
  | flag => exact .flag _
  | @obj part first hpart hn hknown hbelow ih =>
      obtain ⟨second, rfl⟩ := hb.eq_obj hpart
      have ha : ConflictFree part (.obj first) := .obj hpart hn hknown hbelow
      obtain ⟨made, hmade, hnames, hget⟩ := get?_unite hpart ha hb
      rw [hmade]
      refine .of_member hpart hnames ?_
      rintro ⟨key, v⟩ hm
      have hv := Table.get?_of_mem hnames hm
      rw [hget, Option.merge_eq_some_iff] at hv
      rcases hv with ⟨hv, -⟩ | ⟨-, hv⟩ | ⟨old, value, hold, hvalue, rfl⟩
      · exact ha.member hv
      · exact hb.member hv
      · obtain ⟨below, hbelow, hafter⟩ := hb.member hvalue
        refine ⟨below, hbelow, ?_⟩
        rw [hbelow]
        exact ih key old below hold hbelow hafter

/-! ## What stands at a place -/

/-- What a value shows without what it holds. -/
inductive Mark where
  | object
  | name (s : String)
  | noName
  | flag (x : Bool)
deriving DecidableEq

/-- What is shown where two values are made one. -/
def Mark.meet : Mark → Mark → Mark
  | .object, .object => .object
  | .name s, .name t => if s = t then .name s else .noName
  | .flag x, .flag y => .flag (x || y)
  | _, _ => .noName

/-- What the value shows. -/
def mark : Json → Mark
  | .str s => .name s
  | .bool x => .flag x
  | .arr _ => .noName
  | _ => .object

/-- What stands at a path. -/
def mark? (j : Json) (path : List String) : Option Mark := (j.follow? path).map mark

instance : Std.Commutative Mark.meet where
  comm a b := by
    cases a <;> cases b <;> simp only [Mark.meet]
    · next s t =>
        by_cases hst : s = t
        · rw [if_pos hst, if_pos hst.symm, hst]
        · rw [if_neg hst, if_neg (Ne.symm hst)]
    · rw [Bool.or_comm]

instance : Std.Associative Mark.meet where
  -- two kinds meet in no name, which stays one whatever it meets; within a kind it is `=` and `||`
  assoc a b c := by
    cases a <;> cases b <;> cases c <;> grind [Mark.meet]

theorem mark?_obj (members : Members) (key : String) (path : List String) :
    mark? (.obj members) (key :: path) = (Table.get? members key).bind (mark? · path) := by
  show Option.map mark ((Table.get? members key).bind _) = _
  rw [Option.map_bind]
  rfl

theorem ConflictFree.mark?_type (h : ConflictFree .type v) (key : String) (path : List String) :
    mark? v (key :: path) = none := by
  rcases h.type_cases with ⟨s, rfl⟩ | rfl
  · rfl
  · simp [mark?, Json.follow?, Json.step?]

theorem ConflictFree.mark?_flag (h : ConflictFree .flag v) (key : String) (path : List String) :
    mark? v (key :: path) = none := by
  obtain ⟨x, rfl⟩ := h.flag_cases
  rfl

theorem mark_unite (ha : ConflictFree part a) (hb : ConflictFree part b) :
    mark (unite part a b) = (mark a).meet (mark b) := by
  cases ha with
  | name s =>
      rcases hb.type_cases with ⟨t, rfl⟩ | rfl
      · by_cases hst : s = t
        · subst hst
          have hone : unite .type (.str s) (.str s) = .str s := if_pos (beq_self_eq_true s)
          rw [hone]
          exact (if_pos rfl).symm
        · have hnone : unite .type (.str s) (.str t) = .arr [] :=
            if_neg fun he => hst (beq_iff_eq.mp he)
          rw [hnone]
          exact (if_neg hst).symm
      · rfl
  | noName => rcases hb.type_cases with ⟨t, rfl⟩ | rfl <;> rfl
  | flag x =>
      obtain ⟨y, rfl⟩ := hb.flag_cases
      rfl
  | obj hpart hn hknown hbelow =>
      obtain ⟨second, rfl⟩ := hb.eq_obj hpart
      obtain ⟨made, hmade, -⟩ := get?_unite hpart (.obj hpart hn hknown hbelow) hb
      rw [hmade]
      rfl

/-- Of two values made one there stands at every path what is made of what stands there. -/
theorem mark?_unite (ha : ConflictFree part a) (hb : ConflictFree part b) (path : List String) :
    mark? (unite part a b) path = Option.merge Mark.meet (mark? a path) (mark? b path) := by
  induction path generalizing part a b with
  | nil => exact congrArg some (mark_unite ha hb)
  | cons key path ih =>
      cases part with
      | type => rw [(ha.united hb).mark?_type, ha.mark?_type, hb.mark?_type]; rfl
      | flag => rw [(ha.united hb).mark?_flag, ha.mark?_flag, hb.mark?_flag]; rfl
      | schema | entries =>
          obtain ⟨first, rfl⟩ := ha.eq_obj (by simp)
          obtain ⟨second, rfl⟩ := hb.eq_obj (by simp)
          obtain ⟨made, hmade, -, hget⟩ := get?_unite (by simp) ha hb
          rw [hmade, mark?_obj, mark?_obj, mark?_obj, hget]
          cases hold : Table.get? first key with
          | none => cases Table.get? second key <;> simp
          | some old =>
              cases hvalue : Table.get? second key with
              | none => simp
              | some value =>
                  obtain ⟨below, hbelow, hbefore, hafter⟩ := ha.both hb hold hvalue
                  rw [hbelow]
                  exact ih hbefore hafter

/-- Values of one kind are equal when the same stands at every path. -/
theorem same_of_mark? (ha : ConflictFree part a) (hb : ConflictFree part b)
    (h : ∀ path, mark? a path = mark? b path) : a.same b := by
  induction ha generalizing b with
  | name s =>
      have hmark : Mark.name s = mark b := Option.some.inj (h [])
      rcases hb.type_cases with ⟨t, rfl⟩ | rfl
      · rw [Mark.name.inj hmark]
        exact Json.same_refl trivial
      · cases hmark
  | noName =>
      have hmark : Mark.noName = mark b := Option.some.inj (h [])
      rcases hb.type_cases with ⟨t, rfl⟩ | rfl
      · cases hmark
      · rfl
  | flag x =>
      have hmark : Mark.flag x = mark b := Option.some.inj (h [])
      obtain ⟨y, rfl⟩ := hb.flag_cases
      rw [Mark.flag.inj hmark]
      exact Json.same_refl trivial
  | @obj part first hpart hn hknown hbelow ih =>
      obtain ⟨second, rfl⟩ := hb.eq_obj hpart
      have ha : ConflictFree part (.obj first) := .obj hpart hn hknown hbelow
      rw [Json.same_obj_iff ha.distinct hb.distinct]
      intro key
      have hrest : ∀ path, (Table.get? first key).bind (mark? · path) =
          (Table.get? second key).bind (mark? · path) := by
        intro path
        rw [← mark?_obj, ← mark?_obj, h]
      cases hold : Table.get? first key with
      | none =>
          cases hvalue : Table.get? second key with
          | none => exact .none
          | some value =>
              have hhere := hrest []
              rw [hold, hvalue] at hhere
              cases hhere
      | some old =>
          cases hvalue : Table.get? second key with
          | none =>
              have hhere := hrest []
              rw [hold, hvalue] at hhere
              cases hhere
          | some value =>
              rw [hold, hvalue] at hrest
              obtain ⟨below, hpart, -, hafter⟩ := ha.both hb hold hvalue
              exact .some (ih key old below hold hpart hafter hrest)

/-! ## Any number of schemas -/

theorem conflictFree_nil : ConflictFree .schema (.obj []) :=
  .of_member (.inl rfl) List.nodup_nil fun _ hm => absurd hm List.not_mem_nil

theorem merge_conflictFree (ha : ConflictFree .schema a) (hb : ConflictFree .schema b) :
    ConflictFree .schema (merge a b) :=
  ha.united hb

theorem mark?_merge (ha : ConflictFree .schema a) (hb : ConflictFree .schema b)
    (path : List String) :
    mark? (merge a b) path = Option.merge Mark.meet (mark? a path) (mark? b path) :=
  mark?_unite ha hb path

theorem foldl_merge_conflictFree (ha : ConflictFree .schema a)
    (h : ∀ x ∈ xs, ConflictFree .schema x) : ConflictFree .schema (xs.foldl merge a) := by
  induction xs generalizing a with
  | nil => exact ha
  | cons x xs ih =>
      rw [List.forall_mem_cons] at h
      exact ih (merge_conflictFree ha h.1) h.2

theorem mergeAll_conflictFree (h : ∀ x ∈ xs, ConflictFree .schema x) :
    ConflictFree .schema (mergeAll xs) :=
  foldl_merge_conflictFree conflictFree_nil h

theorem mark?_foldl_merge (ha : ConflictFree .schema a) (h : ∀ x ∈ xs, ConflictFree .schema x)
    (path : List String) : mark? (xs.foldl merge a) path =
      (xs.map (mark? · path)).foldl (Option.merge Mark.meet) (mark? a path) := by
  induction xs generalizing a with
  | nil => rfl
  | cons x xs ih =>
      rw [List.forall_mem_cons] at h
      rw [List.foldl_cons, ih (merge_conflictFree ha h.1) h.2, mark?_merge ha h.1, List.map_cons,
        List.foldl_cons]

/-- At every path of merged schemas there stands what is made of what stands there in each. -/
theorem mark?_mergeAll (h : ∀ x ∈ xs, ConflictFree .schema x) (path : List String) :
    mark? (mergeAll xs) path =
      (xs.map (mark? · path)).foldl (Option.merge Mark.meet) (mark? (.obj []) path) :=
  mark?_foldl_merge conflictFree_nil h path

theorem mergeAll_append (front back : List Json) :
    mergeAll (mergeAll front :: back) = mergeAll (front ++ back) := by
  rw [mergeAll_cons, mergeAll, mergeAll, List.foldl_append]

/-- The empty schema stands for nothing that a merged schema does not show. -/
theorem mark?_mergeAll_nil (h : ∀ x ∈ xs, ConflictFree .schema x) (path : List String) :
    Option.merge Mark.meet (mark? (mergeAll xs) path) (mark? (.obj []) path) =
      mark? (mergeAll xs) path := by
  cases path with
  | nil =>
      obtain ⟨members, hmembers⟩ := (mergeAll_conflictFree h).eq_obj (.inl rfl)
      rw [hmembers]
      rfl
  | cons key path =>
      rw [mark?_obj]
      exact Option.merge_none_right

/-- **Conflict-free schemas are merged in any order.**  Merged in another order they are an equal
value; and merging the first ones, and then what comes of them with the rest, gives what merging
all of them gives, and an equal value when the rest is merged on its own before. -/
theorem mergeAll_perm (h : ∀ x ∈ xs, ConflictFree .schema x) :
    (∀ ys, xs.Perm ys → (mergeAll xs).same (mergeAll ys)) ∧
      ∀ front back, xs = front ++ back →
        mergeAll (mergeAll front :: back) = mergeAll xs ∧
          (mergeAll [mergeAll front, mergeAll back]).same (mergeAll xs) := by
  constructor
  · intro ys hperm
    have hys : ∀ y ∈ ys, ConflictFree .schema y := fun y hy => h y (hperm.mem_iff.mpr hy)
    refine same_of_mark? (mergeAll_conflictFree h) (mergeAll_conflictFree hys) fun path => ?_
    rw [mark?_mergeAll h, mark?_mergeAll hys]
    exact (hperm.map _).foldl_eq _
  · rintro front back rfl
    rw [List.forall_mem_append] at h
    obtain ⟨hfront, hback⟩ := h
    refine ⟨mergeAll_append front back, ?_⟩
    rw [mergeAll_pair, ← mergeAll_append, mergeAll_cons]
    have hleft := mergeAll_conflictFree hfront
    have hright := mergeAll_conflictFree hback
    refine same_of_mark? (merge_conflictFree hleft hright)
      (foldl_merge_conflictFree hleft hback) fun path => ?_
    -- the rest is put together from the empty schema on, which adds nothing to the first ones
    calc mark? (merge (mergeAll front) (mergeAll back)) path
        = Option.merge Mark.meet (mark? (mergeAll front) path)
            ((back.map (mark? · path)).foldl (Option.merge Mark.meet) (mark? (.obj []) path)) := by
          rw [mark?_merge hleft hright, mark?_mergeAll hback]
      _ = (back.map (mark? · path)).foldl (Option.merge Mark.meet)
            (Option.merge Mark.meet (mark? (mergeAll front) path) (mark? (.obj []) path)) :=
          List.foldl_assoc.symm
      _ = mark? (back.foldl merge (mergeAll front)) path := by
          rw [mark?_mergeAll_nil hfront, mark?_foldl_merge hleft hback]

/-- Schemas that differ in their types, and in those of what they both have. -/
def differingSchemas : List Json :=
  [.obj [("type", .str "object"),
    ("properties", .obj [("a", .obj [("type", .str "string")]), ("b", .obj [])])],
   .obj [("uniqueItems", .bool true),
    ("properties", .obj [("a", .obj [("type", .str "number")])])],
   .obj [("type", .str "array"), ("items", .obj [("type", .str "string")]),
    ("uniqueItems", .bool false)]]

theorem mergeAll_perm_differing :
    (∀ s ∈ differingSchemas, ConflictFree .schema s) ∧
      (mergeAll differingSchemas).same (mergeAll differingSchemas.reverse) ∧
      mergeAll (mergeAll (differingSchemas.take 2) :: differingSchemas.drop 2) =
        mergeAll differingSchemas := by
  have htype : ∀ t, ConflictFree .schema (.obj [("type", .str t)]) := fun t =>
    .of_member (.inl rfl) (List.nodup_singleton _)
      (List.forall_mem_singleton.mpr ⟨.type, rfl, .name t⟩)
  have hfirst : ConflictFree .entries
      (.obj [("a", .obj [("type", .str "string")]), ("b", .obj [])]) :=
    .of_member (.inr rfl) (by decide) (List.forall_mem_cons.mpr
      ⟨⟨.schema, rfl, htype _⟩, List.forall_mem_singleton.mpr ⟨.schema, rfl, conflictFree_nil⟩⟩)
  have hsecond : ConflictFree .entries (.obj [("a", .obj [("type", .str "number")])]) :=
    .of_member (.inr rfl) (by decide) (List.forall_mem_singleton.mpr ⟨.schema, rfl, htype _⟩)
  have hall : ∀ s ∈ differingSchemas, ConflictFree .schema s := by
    simp only [differingSchemas, List.forall_mem_cons]
    refine ⟨?_, ?_, ?_, fun _ hm => absurd hm List.not_mem_nil⟩
    · refine .of_member (.inl rfl) (by decide) (List.forall_mem_cons.mpr
        ⟨⟨.type, rfl, .name _⟩, List.forall_mem_singleton.mpr ⟨.entries, rfl, hfirst⟩⟩)
    · refine .of_member (.inl rfl) (by decide) (List.forall_mem_cons.mpr
        ⟨⟨.flag, rfl, .flag _⟩, List.forall_mem_singleton.mpr ⟨.entries, rfl, hsecond⟩⟩)
    · refine .of_member (.inl rfl) (by decide) (List.forall_mem_cons.mpr
        ⟨⟨.type, rfl, .name _⟩, List.forall_mem_cons.mpr
          ⟨⟨.schema, rfl, htype _⟩, List.forall_mem_singleton.mpr ⟨.flag, rfl, .flag _⟩⟩⟩)
  obtain ⟨horder, hpieces⟩ := mergeAll_perm hall
  exact ⟨hall, horder _ (List.reverse_perm _).symm,
    (hpieces _ _ (List.take_append_drop 2 _).symm).1⟩

end Schema

end SchemaForm
