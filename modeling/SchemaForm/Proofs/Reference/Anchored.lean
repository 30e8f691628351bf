/-
References that survive, and merging.

A reference that is left in an expanded schema names the place where an object
above it was to land.  `Anchored P role v` says of every reference in `v` that it
names an ancestor of a place at which the schema with it may have been expanded,
where `v` itself was expanded at one of the places of `P`.  Merging keeps that
(`Proofs.Reference.Merging`), although it moves schemas: the items of five
keywords' lists are put side by side, left out, united or distributed, and an item
does not keep its position.  So for them the places do not say which position it
is (`Places.spread`), and for `allOf`, whose members are expanded where the schema
around them is, not even that there is one.

Anchored values have the shape of schemas: no keyword is a numeral, `allOf` holds
no object, and a list within a list or a map has scalars only (`Plain`).
-/
import SchemaForm.Proofs.Json.Places
import SchemaForm.Schema.Combine
import SchemaForm.Schema.Keyword

namespace SchemaForm

namespace Schema

/-- The keywords whose lists merging puts together. -/
def listKeywords : List String := ["allOf", "anyOf", "oneOf", "additionalProperties", "type"]

/-- Places of the expanded schema, each by its segments. -/
abbrev Places := List String → Prop

namespace Places

/-- One step below any of the places. -/
def below (P : Places) (segment : String) : Places := fun q => ∃ p, P p ∧ q = p ++ [segment]

/-- Where an item of a keyword's list may have been expanded. -/
def spread (P : Places) (key : String) : Places := fun q =>
  if key = "allOf" then P q
  else P.below key q ∨ ∃ i : Nat, (P.below key).below (Nat.repr i) q

theorem below_mono {P Q : Places} (h : ∀ q, P q → Q q) (segment : String) :
    ∀ q, P.below segment q → Q.below segment q := by
  rintro q ⟨p, hp, rfl⟩
  exact ⟨p, h p hp, rfl⟩

theorem spread_mono {P Q : Places} (h : ∀ q, P q → Q q) (key : String) :
    ∀ q, P.spread key q → Q.spread key q := by
  intro q hq
  unfold spread at hq ⊢
  split at hq
  · next hk => rw [if_pos hk]; exact h q hq
  · next hk =>
      rw [if_neg hk]
      rcases hq with hq | ⟨i, hq⟩
      · exact .inl (below_mono h key q hq)
      · exact .inr ⟨i, below_mono (below_mono h key) _ q hq⟩

theorem below_spread {P : Places} {key : String} (hk : key ≠ "allOf") :
    ∀ q, P.below key q → P.spread key q := by
  intro q hq
  rw [spread, if_neg hk]
  exact .inl hq

end Places

/-- The value is no list, or one of scalars. -/
def Plain (v : Json) : Prop :=
  ∀ items, v = .arr items → ∀ x ∈ items, x.arr? = none ∧ x.obj? = none

theorem plain_of_arr? {v : Json} (h : v.arr? = none) : Plain v := by
  intro items he
  subst he
  cases h

/-- Every reference within the value names a place above one where the schema that
holds it may have been expanded. -/
inductive Anchored : Places → Role → Json → Prop
  | list {P : Places} {role : Role} {items : List Json} : (∀ x ∈ items, Plain x) →
      (∀ i x, items[i]? = some x → Anchored (P.below (Nat.repr i)) .schema x) →
      Anchored P role (.arr items)
  | map {P : Places} {entries : Members} : (Table.names entries).Nodup →
      (∀ name v, (name, v) ∈ entries → Plain v) →
      (∀ name v, (name, v) ∈ entries → Anchored (P.below name) .schema v) →
      Anchored P .map (.obj entries)
  | schema {P : Places} {members : Members} : (Table.names members).Nodup →
      (∀ key v, (key, v) ∈ members → Pointer.position? key = none) →
      (∀ v, ("allOf", v) ∈ members → v.obj? = none) →
      (∀ target, ("$ref", .str target) ∈ members → Pointer.isPointer target = true →
        ∃ q t, P q ∧ t <+: q ∧ target = "#" ++ Pointer.ofSegments t) →
      (∀ key items, key ∈ listKeywords → (key, .arr items) ∈ members →
        ∀ x ∈ items, Plain x) →
      (∀ key items, key ∈ listKeywords → (key, .arr items) ∈ members →
        ∀ x ∈ items, Anchored (P.spread key) .schema x) →
      (∀ key v role, (key, v) ∈ members → Role.ofKeyword? key = some role →
        (key ∈ listKeywords → v.arr? = none) → Anchored (P.below key) role v) →
      Anchored P .schema (.obj members)
  | scalar {P : Places} {role : Role} {v : Json} : v.arr? = none → v.obj? = none →
      Anchored P role v

/-- An anchored schema, which is no list but of scalars. -/
structure Settled (P : Places) (v : Json) : Prop where
  anchored : Anchored P .schema v
  plain : Plain v

/-- What a member of an anchored schema object meets. -/
structure Held (P : Places) (key : String) (v : Json) : Prop where
  keyword : Pointer.position? key = none
  allOf : key = "allOf" → v.obj? = none
  reference : key = "$ref" → ∀ target, v = .str target → Pointer.isPointer target = true →
    ∃ q t, P q ∧ t <+: q ∧ target = "#" ++ Pointer.ofSegments t
  items : key ∈ listKeywords → ∀ items, v = .arr items → ∀ x ∈ items, Settled (P.spread key) x
  other : ∀ role, Role.ofKeyword? key = some role → (key ∈ listKeywords → v.arr? = none) →
    Anchored (P.below key) role v

section Held

variable {P Q : Places} {role : Role} {key : String} {v : Json} {members : Members}

theorem anchored_schema : Anchored P .schema (.obj members) ↔
    (Table.names members).Nodup ∧ ∀ key v, (key, v) ∈ members → Held P key v := by
  constructor
  · intro h
    cases h with
    | schema hn hplain hall href hlists hitems hother =>
        refine ⟨hn, fun key v hm => ⟨hplain key v hm, ?_, ?_, ?_, ?_⟩⟩
        · rintro rfl
          exact hall v hm
        · rintro rfl target rfl hp
          exact href target hm hp
        · rintro hk items rfl x hx
          exact ⟨hitems key items hk hm x hx, hlists key items hk hm x hx⟩
        · exact fun role hr harr => hother key v role hm hr harr
    | scalar _ hobj => cases hobj
  · rintro ⟨hn, h⟩
    refine .schema hn ?_ ?_ ?_ ?_ ?_ ?_
    · exact fun key v hm => (h _ _ hm).keyword
    · exact fun v hm => (h _ _ hm).allOf rfl
    · exact fun target hm hp => (h _ _ hm).reference rfl target rfl hp
    · exact fun key items hk hm x hx => ((h _ _ hm).items hk items rfl x hx).plain
    · exact fun key items hk hm x hx => ((h _ _ hm).items hk items rfl x hx).anchored
    · exact fun key v role hm hr harr => (h _ _ hm).other role hr harr

theorem settled_schema : Settled P (.obj members) ↔
    (Table.names members).Nodup ∧ ∀ key v, (key, v) ∈ members → Held P key v :=
  ⟨fun h => anchored_schema.mp h.anchored, fun h => ⟨anchored_schema.mpr h, plain_of_arr? rfl⟩⟩

theorem anchored_map {entries : Members} : Anchored P .map (.obj entries) ↔
    (Table.names entries).Nodup ∧
      ∀ name v, (name, v) ∈ entries → Settled (P.below name) v := by
  constructor
  · intro h
    cases h with
    | map hn hlists he => exact ⟨hn, fun name v hm => ⟨he name v hm, hlists name v hm⟩⟩
    | scalar _ hobj => cases hobj
  · rintro ⟨hn, he⟩
    exact .map hn (fun name v hm => (he name v hm).plain) fun name v hm => (he name v hm).anchored

theorem Anchored.mono (h : Anchored P role v) (hPQ : ∀ q, P q → Q q) : Anchored Q role v := by
  induction h generalizing Q with
  | list hlists _ ih =>
      exact .list hlists fun i x hx => ih i x hx (Places.below_mono hPQ _)
  | map hn hlists _ ih =>
      exact .map hn hlists fun name v hm => ih name v hm (Places.below_mono hPQ _)
  | schema hn hplain hall href hlists _ _ ihitems ihother =>
      refine .schema hn hplain hall ?_ hlists ?_ ?_
      · intro target hm hp
        obtain ⟨q, t, hq, ht, he⟩ := href target hm hp
        exact ⟨q, t, hPQ q hq, ht, he⟩
      · exact fun key items hk hm x hx => ihitems key items hk hm x hx (Places.spread_mono hPQ _)
      · exact fun key v role hm hr harr =>
          ihother key v role hm hr harr (Places.below_mono hPQ _)
  | scalar harr hobj => exact .scalar harr hobj

theorem Settled.mono (h : Settled P v) (hPQ : ∀ q, P q → Q q) : Settled Q v :=
  ⟨h.anchored.mono hPQ, h.plain⟩

theorem ofKeyword?_list (hk : key ∈ listKeywords) : Role.ofKeyword? key = some .schema := by
  simp only [listKeywords, List.mem_cons, List.not_mem_nil, or_false] at hk
  rcases hk with rfl | rfl | rfl | rfl | rfl <;> rfl

theorem settled_scalar (harr : v.arr? = none) (hobj : v.obj? = none) : Settled P v :=
  ⟨.scalar harr hobj, plain_of_arr? harr⟩

theorem held_data (hp : Pointer.position? key = none) (hk : Role.ofKeyword? key = none) :
    Held P key v where
  keyword := hp
  allOf := by
    rintro rfl
    exact absurd hk (Option.some_ne_none Role.schema)
  reference := by
    rintro rfl
    exact absurd hk (Option.some_ne_none Role.schema)
  items := fun hl => absurd ((ofKeyword?_list hl).symm.trans hk) (Option.some_ne_none _)
  other := fun role hr => absurd (hr.symm.trans hk) (Option.some_ne_none role)

theorem held_scalar (hp : Pointer.position? key = none) (hk : key ≠ "$ref") (harr : v.arr? = none)
    (hobj : v.obj? = none) : Held P key v where
  keyword := hp
  allOf := fun _ => hobj
  reference := fun h => absurd h hk
  items := by
    rintro - items rfl
    cases harr
  other := fun _ _ _ => .scalar harr hobj

theorem held_list (hp : Pointer.position? key = none) (hk : key ∈ listKeywords)
    {items : List Json} (h : ∀ x ∈ items, Settled (P.spread key) x) : Held P key (.arr items) where
  keyword := hp
  allOf := fun _ => rfl
  reference := by
    rintro - target ⟨⟩
  items := by
    rintro - _ ⟨⟩
    exact h
  other := fun _ _ harr => absurd (harr hk) (Option.some_ne_none _)

theorem held_of_plain (hp : Pointer.position? key = none)
    (hr : Role.ofKeyword? key = some role) (hplain : Plain v) (hkey : key ≠ "$ref")
    (hall : key ≠ "allOf") (h : Anchored (P.below key) role v) : Held P key v where
  keyword := hp
  allOf := fun he => absurd he hall
  reference := fun he => absurd he hkey
  items := by
    intro _ items he x hx
    obtain ⟨harr, hobj⟩ := hplain items he x hx
    exact settled_scalar harr hobj
  other := by
    intro role' hr' _
    obtain rfl : role = role' := Option.some.inj (hr.symm.trans hr')
    exact h

theorem settled_empty : Settled P (.obj []) :=
  settled_schema.mpr ⟨List.nodup_nil, fun _ _ hm => absurd hm List.not_mem_nil⟩

end Held

end Schema

end SchemaForm
