/-
What holds of every object in a value.

`Everywhere P j` says that the members of every object in `j`, itself included, have the
property `P`.  That no name is double (`Distinct`) and that a name does not occur (`Lacks`)
are of this kind, and so one proof shows that both are kept.
-/
import SchemaForm.Proofs.Json.Places

namespace SchemaForm

namespace Json

mutual

/-- The members of every object have the property. -/
def Everywhere (P : Members → Prop) : Json → Prop
  | .arr items => EverywhereItems P items
  | .obj members => P members ∧ EverywhereMembers P members
  | _ => True

def EverywhereItems (P : Members → Prop) : List Json → Prop
  | [] => True
  | x :: xs => x.Everywhere P ∧ EverywhereItems P xs

def EverywhereMembers (P : Members → Prop) : List (String × Json) → Prop
  | [] => True
  | (_, value) :: rest => value.Everywhere P ∧ EverywhereMembers P rest

end

mutual

instance decidableEverywhere (P : Members → Prop) [DecidablePred P] :
    (j : Json) → Decidable (j.Everywhere P)
  | .arr items => decidableItems P items
  | .obj members =>
      have := decidableMembers P members
      inferInstanceAs (Decidable (P members ∧ EverywhereMembers P members))
  | .null => .isTrue trivial
  | .bool _ => .isTrue trivial
  | .num _ => .isTrue trivial
  | .str _ => .isTrue trivial

instance decidableItems (P : Members → Prop) [DecidablePred P] :
    (items : List Json) → Decidable (EverywhereItems P items)
  | [] => .isTrue trivial
  | x :: xs =>
      have := decidableEverywhere P x
      have := decidableItems P xs
      inferInstanceAs (Decidable (x.Everywhere P ∧ EverywhereItems P xs))

instance decidableMembers (P : Members → Prop) [DecidablePred P] :
    (members : List (String × Json)) → Decidable (EverywhereMembers P members)
  | [] => .isTrue trivial
  | (_, value) :: rest =>
      have := decidableEverywhere P value
      have := decidableMembers P rest
      inferInstanceAs (Decidable (value.Everywhere P ∧ EverywhereMembers P rest))

end

variable {P : Members → Prop} {items : List Json} {members : Members} {key : String} {v : Json}

theorem everywhereItems_iff : EverywhereItems P items ↔ ∀ x ∈ items, x.Everywhere P := by
  induction items with
  | nil => exact ⟨fun _ _ h => absurd h List.not_mem_nil, fun _ => trivial⟩
  | cons x xs ih => rw [EverywhereItems, ih, List.forall_mem_cons]

theorem everywhereMembers_iff :
    EverywhereMembers P members ↔ ∀ entry ∈ members, entry.2.Everywhere P := by
  induction members with
  | nil => exact ⟨fun _ _ h => absurd h List.not_mem_nil, fun _ => trivial⟩
  | cons entry rest ih =>
      obtain ⟨name, value⟩ := entry
      rw [EverywhereMembers, ih, List.forall_mem_cons]

theorem everywhere_arr : (arr items).Everywhere P ↔ ∀ x ∈ items, x.Everywhere P :=
  everywhereItems_iff

theorem everywhere_obj : (obj members).Everywhere P ↔
    P members ∧ ∀ entry ∈ members, entry.2.Everywhere P :=
  and_congr_right fun _ => everywhereMembers_iff

theorem Everywhere.member (h : (obj members).Everywhere P) (hv : Table.get? members key = some v) :
    v.Everywhere P :=
  (everywhere_obj.mp h).2 _ (Table.mem_of_get? hv)

/-- What holds everywhere holds everywhere below. -/
theorem Everywhere.follow {w : Json} {path : List String} (h : v.Everywhere P)
    (hw : v.follow? path = some w) : w.Everywhere P := by
  induction path generalizing v with
  | nil => exact Option.some.inj hw ▸ h
  | cons key rest ih =>
      obtain ⟨next, hnext, hw⟩ := Option.bind_eq_some_iff.mp hw
      refine ih ?_ hw
      cases v with
      | obj members => exact h.member hnext
      | arr items =>
          obtain ⟨i, -, hget⟩ := Option.bind_eq_some_iff.mp hnext
          exact everywhere_arr.mp h next (List.mem_of_getElem? hget)
      | _ => cases hnext

/-- The names are no numerals, and there are no lists under them. -/
def Named (members : Members) : Prop :=
  ∀ entry ∈ members, Pointer.index? entry.1 = none ∧ entry.2.arr? = none

instance : DecidablePred Named := fun members =>
  inferInstanceAs (Decidable (∀ entry ∈ members, _ ∧ _))

/-- Where that is so everywhere, no step down is a position. -/
theorem Everywhere.follow_named {w : Json} {path : List String} (h : v.Everywhere Named)
    (hv : v.arr? = none) (hw : v.follow? path = some w) :
    ∀ key ∈ path, Pointer.index? key = none := by
  induction path generalizing v with
  | nil => exact fun _ hkey => absurd hkey List.not_mem_nil
  | cons key rest ih =>
      obtain ⟨next, hnext, hrest⟩ := Option.bind_eq_some_iff.mp hw
      cases v with
      | obj members =>
          obtain ⟨hkey, hlist⟩ := (everywhere_obj.mp h).1 _ (Table.mem_of_get? hnext)
          exact List.forall_mem_cons.mpr ⟨hkey, ih (h.member hnext) hlist hrest⟩
      | arr items => cases hv
      | _ => cases hnext

/-! ## Names -/

mutual

theorem distinct_iff : ∀ {j : Json},
    j.Distinct ↔ j.Everywhere (fun members => (Table.names members).Nodup)
  | .arr _ => distinctItems_iff_everywhere
  | .obj _ => and_congr_right fun _ => distinctMembers_iff_everywhere
  | .null | .bool _ | .num _ | .str _ => Iff.rfl

theorem distinctItems_iff_everywhere : ∀ {items : List Json},
    DistinctItems items ↔ EverywhereItems (fun members => (Table.names members).Nodup) items
  | [] => Iff.rfl
  | _ :: _ => and_congr distinct_iff distinctItems_iff_everywhere

theorem distinctMembers_iff_everywhere : ∀ {members : List (String × Json)},
    DistinctMembers members ↔
      EverywhereMembers (fun members => (Table.names members).Nodup) members
  | [] => Iff.rfl
  | (_, _) :: _ => and_congr distinct_iff distinctMembers_iff_everywhere

end

/-- The name does not occur in the value. -/
def Lacks (key : String) (j : Json) : Prop := j.Everywhere fun members => key ∉ Table.names members

end Json

end SchemaForm
