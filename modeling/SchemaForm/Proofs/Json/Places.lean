/-
The values within a value, and where they stand.

`Distinct` says that no object holds a name twice, as is promised of every value
that is read or built by the name.  Then a member stands at its name, every item
at its numeral (`Stands.member`, `Stands.item`), and one value stands at a place.
There are no more places than values (`length_places`).
-/
import SchemaForm.Pointer.Access
import SchemaForm.Proofs.Pointer.Segments
import SchemaForm.Proofs.Table

namespace SchemaForm

namespace Json

/-! ## Distinct names -/

mutual

/-- No object holds a name twice. -/
def Distinct : Json → Prop
  | .arr items => DistinctItems items
  | .obj members => (Table.names members).Nodup ∧ DistinctMembers members
  | _ => True

def DistinctItems : List Json → Prop
  | [] => True
  | x :: xs => x.Distinct ∧ DistinctItems xs

def DistinctMembers : List (String × Json) → Prop
  | [] => True
  | (_, value) :: rest => value.Distinct ∧ DistinctMembers rest

end

theorem distinctItems_iff {items : List Json} :
    DistinctItems items ↔ ∀ x ∈ items, x.Distinct := by
  induction items with
  | nil => exact ⟨fun _ _ h => absurd h List.not_mem_nil, fun _ => trivial⟩
  | cons x xs ih => rw [DistinctItems, ih, List.forall_mem_cons]

theorem distinctMembers_iff {members : List (String × Json)} :
    DistinctMembers members ↔ ∀ entry ∈ members, entry.2.Distinct := by
  induction members with
  | nil => exact ⟨fun _ _ h => absurd h List.not_mem_nil, fun _ => trivial⟩
  | cons entry rest ih =>
      obtain ⟨key, value⟩ := entry
      rw [DistinctMembers, ih, List.forall_mem_cons]

theorem Distinct.member {members : Members} {key : String} {v : Json}
    (hj : (obj members).Distinct) (h : Table.get? members key = some v) : v.Distinct :=
  distinctMembers_iff.mp hj.2 (key, v) (Table.mem_of_get? h)

theorem Distinct.get? {j v : Json} {key : String} (hj : j.Distinct) (h : j.get? key = some v) :
    v.Distinct := by
  cases j with
  | obj members => exact hj.member h
  | _ => cases h

theorem Distinct.step {j v : Json} {key : String} (hj : j.Distinct) (h : j.step? key = some v) :
    v.Distinct := by
  cases j with
  | arr items =>
      obtain ⟨i, -, hi⟩ := Option.bind_eq_some_iff.mp h
      exact distinctItems_iff.mp hj v (List.mem_of_getElem? hi)
  | obj members => exact hj.member h
  | _ => cases h

theorem Distinct.follow {j v : Json} {segments : List String} (hj : j.Distinct)
    (h : j.follow? segments = some v) : v.Distinct := by
  induction segments generalizing j with
  | nil => exact Option.some.inj h ▸ hj
  | cons key rest ih =>
      obtain ⟨next, hs, h⟩ := Option.bind_eq_some_iff.mp h
      exact ih (hj.step hs) h

/-! ## Places -/

theorem follow?_append (j : Json) (a b : List String) :
    j.follow? (a ++ b) = (j.follow? a).bind (·.follow? b) := by
  induction a generalizing j with
  | nil => rfl
  | cons key rest ih =>
      simp only [List.cons_append, follow?, Option.bind_assoc, ih]

theorem at?_ofSegments (j : Json) (segments : List String) :
    j.at? (Pointer.ofSegments segments) = j.follow? segments := by
  rw [at?, Pointer.segments?_ofSegments, Option.bind_some]

/-- The value stands at the pointer, written in its one spelling. -/
def Stands (j : Json) (pointer : String) (v : Json) : Prop :=
  ∃ segments, pointer = Pointer.ofSegments segments ∧ j.follow? segments = some v

namespace Stands

variable {j v w : Json} {pointer : String}

theorem root (j : Json) : j.Stands "" j := ⟨[], rfl, rfl⟩

theorem at? (h : j.Stands pointer v) : j.at? pointer = some v := by
  obtain ⟨segments, rfl, h⟩ := h
  rw [at?_ofSegments, h]

theorem unique (hv : j.Stands pointer v) (hw : j.Stands pointer w) : v = w :=
  Option.some.inj (hv.at?.symm.trans hw.at?)

theorem distinct (hj : j.Distinct) (h : j.Stands pointer v) : v.Distinct := by
  obtain ⟨segments, -, h⟩ := h
  exact hj.follow h

theorem of_at? (h : j.at? pointer = some v) : j.Stands (Pointer.normalize pointer) v := by
  obtain ⟨segments, hs, h⟩ := Option.bind_eq_some_iff.mp h
  refine ⟨segments, ?_, h⟩
  rw [Pointer.normalize, hs]

theorem of_at?_normalize (h : j.at? (Pointer.normalize pointer) = some v) :
    j.Stands (Pointer.normalize pointer) v :=
  Pointer.normalize_normalize pointer ▸ of_at? h

theorem member {members : Members} {key : String} (h : j.Stands pointer (.obj members))
    (hn : (Table.names members).Nodup) (hm : (key, v) ∈ members) :
    j.Stands (Pointer.child pointer key) v := by
  obtain ⟨segments, rfl, h⟩ := h
  refine ⟨segments ++ [key], Pointer.child_ofSegments segments key, ?_⟩
  rw [follow?_append, h, Option.bind_some, follow?, step?, Table.get?_of_mem hn hm]
  rfl

theorem item {items : List Json} {i : Nat} (h : j.Stands pointer (.arr items))
    (hi : items[i]? = some v) : j.Stands (Pointer.item pointer i) v := by
  obtain ⟨segments, rfl, h⟩ := h
  refine ⟨segments ++ [Nat.repr i], Pointer.item_ofSegments segments i, ?_⟩
  rw [follow?_append, h, Option.bind_some, follow?, step?, Pointer.position?_repr]
  exact congrArg (Option.bind · fun next => next.follow? []) hi

end Stands

/-! ## Counting them -/

theorem size_le_of_member {members : Members} {key : String} {v : Json}
    (h : (key, v) ∈ members) : v.size ≤ sizeMembers members := by
  induction members with
  | nil => exact absurd h List.not_mem_nil
  | cons entry rest ih =>
      obtain ⟨name, value⟩ := entry
      rw [sizeMembers]
      cases List.mem_cons.mp h with
      | inl he =>
          obtain ⟨rfl, rfl⟩ := Prod.mk.inj he
          omega
      | inr h =>
          have := ih h
          omega

mutual

theorem length_preorder (here : String) :
    ∀ j : Json, (preorder (fun _ => false) here j).length = j.size
  | .arr items => by
      simp only [preorder, Bool.false_eq_true, if_false, List.length_cons, size,
        length_preorderItems here 0 items, Nat.add_comm]
  | .obj members => by
      simp only [preorder, Bool.false_eq_true, if_false, List.length_cons, size,
        length_preorderMembers here members, Nat.add_comm]
  | .null | .bool _ | .num _ | .str _ => rfl

theorem length_preorderItems (here : String) (index : Nat) :
    ∀ items : List Json,
      (preorderItems (fun _ => false) here index items).length = sizeItems items
  | [] => rfl
  | x :: xs => by
      rw [preorderItems, List.length_append, length_preorder _ x,
        length_preorderItems here (index + 1) xs, sizeItems]

theorem length_preorderMembers (here : String) :
    ∀ members : List (String × Json),
      (preorderMembers (fun _ => false) here members).length = sizeMembers members
  | [] => rfl
  | (key, value) :: rest => by
      rw [preorderMembers, List.length_append, length_preorder _ value,
        length_preorderMembers here rest, sizeMembers]

end

theorem length_places (j : Json) : j.places.length = j.size := by
  rw [places, List.length_map, length_preorder]

end Json

end SchemaForm
