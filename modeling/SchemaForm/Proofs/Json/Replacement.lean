/-
Replacing the value at a pointer.

`Json.set` replaces a value where there is one, and changes nothing where there is none.  One step
down, the container keeps the names of what it holds in order and what stands under other names
(`Json.Replaced`).  So along a path, what is reached by other ways reads as before, and the objects
on the way have their members in the same order (`set_frame`).
-/
import SchemaForm.Proofs.Json.Places

namespace SchemaForm

namespace Json

variable {v w new value : Json} {key : String} {path other : List String}

/-- The names of the members of an object, in order. -/
def memberNames? (j : Json) : Option (List String) := j.obj?.map Table.names

/-- The one value is the other one with what stands at a step replaced. -/
structure Replaced (key : String) (value v w : Json) : Prop where
  here : w.step? key = some value
  elsewhere : ∀ other, other ≠ key → w.step? other = v.step? other
  names : w.memberNames? = v.memberNames?

theorem replaced_insert {members : Members} {old : Json}
    (hold : Table.get? members key = some old) (value : Json) :
    Replaced key value (.obj members) (.obj (Table.insert members key value)) where
  here := by
    rw [step?, Table.get?_insert, if_pos rfl]
  elsewhere := by
    intro other hne
    rw [step?, Table.get?_insert, if_neg (Ne.symm hne), step?]
  names := by
    have hname : key ∈ Table.names members := by
      rw [← Table.get?_isSome_iff, hold]
      rfl
    exact congrArg some (Table.names_insert hname value)

theorem replaced_set {items : List Json} {old : Json} {i : Nat}
    (hi : Pointer.position? key = some i) (hold : items[i]? = some old) (value : Json) :
    Replaced key value (.arr items) (.arr (items.set i value)) where
  here := by
    have hlt : i < items.length := (List.getElem?_eq_some_iff.mp hold).1
    rw [step?, hi, Option.bind_some, List.getElem?_set_self hlt]
  elsewhere := by
    intro other hne
    cases hj : Pointer.position? other with
    | none => simp only [step?, hj, Option.bind_none]
    | some j =>
        -- a position has one numeral, so the other segment is the one of another item
        have hij : i ≠ j := by
          rintro rfl
          exact hne ((Pointer.eq_repr_of_position? hj).trans (Pointer.eq_repr_of_position? hi).symm)
        simp only [step?, hj, Option.bind_some, List.getElem?_set_ne hij]
  names := rfl

/-- What replacing at the end of a path does one step down. -/
theorem putAlong?_cons (h : putAlong? new (key :: path) v = some w) :
    ∃ old value, v.step? key = some old ∧ putAlong? new path old = some value ∧
      Replaced key value v w := by
  cases v with
  | arr items =>
      obtain ⟨i, hi, h⟩ := Option.bind_eq_some_iff.mp h
      obtain ⟨old, hold, h⟩ := Option.bind_eq_some_iff.mp h
      obtain ⟨value, hvalue, rfl⟩ := Option.map_eq_some_iff.mp h
      refine ⟨old, value, ?_, hvalue, replaced_set hi hold value⟩
      rw [step?, hi, Option.bind_some, hold]
  | obj members =>
      obtain ⟨old, hold, h⟩ := Option.bind_eq_some_iff.mp h
      obtain ⟨value, hvalue, rfl⟩ := Option.map_eq_some_iff.mp h
      exact ⟨old, value, hold, hvalue, replaced_insert hold value⟩
  | _ => cases h

/-- A value is replaced if and only if there is one. -/
theorem putAlong?_isSome (new : Json) (path : List String) (v : Json) :
    (putAlong? new path v).isSome = (v.follow? path).isSome := by
  induction path generalizing v with
  | nil => rfl
  | cons key path ih =>
      cases v with
      | arr items =>
          rw [putAlong?, follow?, step?]
          cases Pointer.position? key with
          | none => rfl
          | some i => cases hold : items[i]? <;> simp [hold, ih]
      | obj members =>
          rw [putAlong?, follow?, step?]
          cases Table.get? members key <;> simp [ih]
      | _ => rfl

theorem follow?_putAlong? (h : putAlong? new path v = some w) : w.follow? path = some new := by
  induction path generalizing v w with
  | nil => exact h.symm
  | cons key path ih =>
      obtain ⟨old, value, -, hvalue, hreplaced⟩ := putAlong?_cons h
      rw [follow?, hreplaced.here, Option.bind_some]
      exact ih hvalue

/-- Outside the value that is replaced, members keep their order, and what does not contain it is
kept. -/
theorem putAlong?_frame (h : putAlong? new path v = some w) (hout : ¬path <+: other) :
    (w.follow? other).bind memberNames? = (v.follow? other).bind memberNames? ∧
      (¬other <+: path → w.follow? other = v.follow? other) := by
  induction path generalizing v w other with
  | nil => exact absurd List.nil_prefix hout
  | cons key path ih =>
      obtain ⟨old, value, hold, hvalue, hreplaced⟩ := putAlong?_cons h
      cases other with
      | nil => exact ⟨hreplaced.names, fun hne => absurd List.nil_prefix hne⟩
      | cons first other =>
          by_cases hfirst : first = key
          · subst hfirst
            obtain ⟨hnames, hkept⟩ :=
              ih hvalue fun hprefix => hout (List.cons_prefix_cons.mpr ⟨rfl, hprefix⟩)
            simp only [follow?, hreplaced.here, hold, Option.bind_some]
            exact ⟨hnames, fun hne => hkept fun hprefix =>
              hne (List.cons_prefix_cons.mpr ⟨rfl, hprefix⟩)⟩
          · have hsame : w.follow? (first :: other) = v.follow? (first :: other) := by
              rw [follow?, follow?, hreplaced.elsewhere first hfirst]
            exact ⟨by rw [hsame], fun _ => hsame⟩

/-! ## At pointers -/

theorem set_of_segments? {pointer : String} (h : Pointer.segments? pointer = some path) :
    v.set pointer new =
      ((putAlong? new path v).isSome, (putAlong? new path v).getD v) := by
  rw [set, put?, h, Option.bind_some]
  cases putAlong? new path v <;> rfl

theorem set_of_none {pointer : String} (h : Pointer.segments? pointer = none) :
    v.set pointer new = (false, v) := by
  rw [set, put?, h]
  rfl

/-- **What is replaced, and what is kept.**  A value is replaced at a pointer if and only if there
is one, and else nothing changes.  Then the new value is read at the pointer, every pointer neither
above nor below it reads what it read, and all objects but those in the value that is replaced have
their members in the same order. -/
theorem set_frame (v : Json) (pointer : String) (new : Json) :
    ((v.set pointer new).1 = true ↔ (v.at? pointer).isSome = true) ∧
    ((v.set pointer new).1 = false → (v.set pointer new).2 = v) ∧
    ((v.set pointer new).1 = true → (v.set pointer new).2.at? pointer = some new) ∧
    ∀ path place other, Pointer.segments? pointer = some path →
      Pointer.segments? place = some other → ¬path <+: other →
      ((v.set pointer new).2.at? place).bind memberNames? = (v.at? place).bind memberNames? ∧
      (¬other <+: path → (v.set pointer new).2.at? place = v.at? place) := by
  cases hpointer : Pointer.segments? pointer with
  | none =>
      rw [set_of_none hpointer, at?, hpointer]
      refine ⟨by simp, fun _ => rfl, fun h => absurd h Bool.false_ne_true, ?_⟩
      rintro path place other ⟨⟩
  | some path =>
      have hread : ∀ j : Json, j.at? pointer = j.follow? path := by
        intro j
        rw [at?, hpointer, Option.bind_some]
      have hsome := putAlong?_isSome new path v
      rw [set_of_segments? hpointer, hread, hread]
      cases hput : putAlong? new path v with
      | none =>
          rw [hput] at hsome
          refine ⟨by rw [← hsome], fun _ => rfl, fun h => absurd h Bool.false_ne_true, ?_⟩
          intro _ place other _ _ _
          exact ⟨rfl, fun _ => rfl⟩
      | some w =>
          rw [hput] at hsome
          refine ⟨by rw [← hsome], fun h => absurd h.symm Bool.false_ne_true,
            fun _ => follow?_putAlong? hput, ?_⟩
          rintro _ place other ⟨⟩ hplace hout
          rw [Option.getD_some, at?, at?, hplace, Option.bind_some, Option.bind_some]
          exact putAlong?_frame hput hout

/-- A list with an object in it, and a member beside the list. -/
def nestedValue : Json :=
  .obj [("z", .arr [.bool true, .obj [("b", .null), ("a", .null)]]), ("y", .str "kept")]

theorem set_frame_nested :
    (nestedValue.set "#/z/1/b" .null).1 = true ∧
    (nestedValue.set "#/z/1/b" (.str "new")).2.at? "#/z/1/b" = some (.str "new") ∧
    (nestedValue.set "#/z/1/b" (.str "new")).2.at? "/z/0" = nestedValue.at? "/z/0" ∧
    ((nestedValue.set "#/z/1/b" (.str "new")).2.at? "/z/1").bind memberNames? = some ["b", "a"] ∧
    (nestedValue.set "/z/01/b" .null).1 = false ∧
    (nestedValue.set "/z/01/b" .null).2 = nestedValue := by
  have hset : (nestedValue.set "#/z/1/b" (.str "new")).1 = true := by decide
  have hfalse : (nestedValue.set "/z/01/b" .null).1 = false := by decide
  have hpath : Pointer.segments? "#/z/1/b" = some ["z", "1", "b"] := by decide
  obtain ⟨-, -, hread, hframe⟩ := set_frame nestedValue "#/z/1/b" (.str "new")
  obtain ⟨-, hkept, -, -⟩ := set_frame nestedValue "/z/01/b" .null
  have hbeside := (hframe _ "/z/0" ["z", "0"] hpath (by decide) (by decide)).2 (by decide)
  have hround := (hframe _ "/z/1" ["z", "1"] hpath (by decide) (by decide)).1
  exact ⟨by decide, hread hset, hbeside, hround.trans (by decide), hfalse, hkept hfalse⟩

end Json

end SchemaForm
