/-
What holds of every schema object.

A value is read as a schema or as a map of schemas, and so are the values in it
(`role_induction`).  `EachObject P role v` says that the members of every schema object in `v`
have the property `P`, by recursion on the value.  That is so when it holds of the listed ones
(`eachObject_iff`), and when it holds of all objects, data included (`eachObject_of_everywhere`).
-/
import SchemaForm.Proofs.Json.Everywhere
import SchemaForm.Schema.Keyword

namespace SchemaForm

namespace Schema

variable {P : Members → Prop} {members : Members} {items : List Json}

/-- Induction on how a value is read: the items of a list and the entries of a map are schemas,
and the value of a keyword is what the keyword says. -/
theorem role_induction {motive : Role → Json → Prop}
    (list : ∀ role items, (∀ x ∈ items, motive .schema x) → motive role (.arr items))
    (map : ∀ entries : Members, (∀ entry ∈ entries, motive .schema entry.2) →
      motive .map (.obj entries))
    (schema : ∀ members : Members, (∀ entry ∈ members, ∀ role,
      Role.ofKeyword? entry.1 = some role → motive role entry.2) → motive .schema (.obj members))
    (scalar : ∀ role v, v.arr? = none → v.obj? = none → motive role v) (role : Role) (v : Json) :
    motive role v := by
  induction hn : v.size using Nat.strongRecOn generalizing role v with
  | ind n ih =>
      subst hn
      cases v with
      | arr items =>
          refine list role items fun x hx => ih _ ?_ .schema x rfl
          have := Json.size_le_of_mem hx
          rw [Json.size]
          omega
      | obj members =>
          have hsmall : ∀ entry ∈ members, entry.2.size < (Json.obj members).size := by
            intro entry hm
            have hsize : entry.2.size ≤ Json.sizeMembers members := Json.size_le_of_member hm
            rw [Json.size]
            omega
          cases role with
          | map => exact map members fun entry hm => ih _ (hsmall entry hm) .schema entry.2 rfl
          | schema =>
              exact schema members fun entry hm role _ => ih _ (hsmall entry hm) role entry.2 rfl
      | null | bool _ | num _ | str _ => exact scalar role _ rfl rfl

mutual

/-- The members of every schema object have the property. -/
def EachObject (P : Members → Prop) : Role → Json → Prop
  | _, .arr items => EachItem P items
  | .map, .obj entries => EachEntry P entries
  | .schema, .obj members => P members ∧ EachMember P members
  | _, _ => True

def EachItem (P : Members → Prop) : List Json → Prop
  | [] => True
  | x :: xs => EachObject P .schema x ∧ EachItem P xs

def EachEntry (P : Members → Prop) : List (String × Json) → Prop
  | [] => True
  | (_, value) :: rest => EachObject P .schema value ∧ EachEntry P rest

def EachMember (P : Members → Prop) : List (String × Json) → Prop
  | [] => True
  | (key, value) :: rest =>
      (match Role.ofKeyword? key with
        | some role => EachObject P role value
        | none => True) ∧ EachMember P rest

end

mutual

theorem eachObject_iff : ∀ {role : Role} {v : Json} (here : String),
    EachObject P role v ↔ ∀ object ∈ objectsFrom here role v, P object.2
  | .map, .arr _, here | .schema, .arr _, here => eachItem_iff here 0
  | .map, .obj _, here => eachEntry_iff here
  | .schema, .obj _, here => by
      rw [EachObject, objectsFrom, List.forall_mem_cons, eachMember_iff here]
  | .map, .null, _ | .map, .bool _, _ | .map, .num _, _ | .map, .str _, _
  | .schema, .null, _ | .schema, .bool _, _ | .schema, .num _, _ | .schema, .str _, _ =>
      ⟨fun _ _ h => absurd h List.not_mem_nil, fun _ => trivial⟩

theorem eachItem_iff : ∀ {items : List Json} (here : String) (index : Nat),
    EachItem P items ↔ ∀ object ∈ objectsOfItems here index items, P object.2
  | [], _, _ => ⟨fun _ _ h => absurd h List.not_mem_nil, fun _ => trivial⟩
  | x :: xs, here, index => by
      rw [EachItem, objectsOfItems, List.forall_mem_append,
        eachObject_iff (Pointer.item here index), eachItem_iff here (index + 1)]

theorem eachEntry_iff : ∀ {entries : List (String × Json)} (here : String),
    EachEntry P entries ↔ ∀ object ∈ objectsOfMap here entries, P object.2
  | [], _ => ⟨fun _ _ h => absurd h List.not_mem_nil, fun _ => trivial⟩
  | (name, value) :: rest, here => by
      rw [EachEntry, objectsOfMap, List.forall_mem_append,
        eachObject_iff (Pointer.child here name), eachEntry_iff here]

theorem eachMember_iff : ∀ {members : List (String × Json)} (here : String),
    EachMember P members ↔ ∀ object ∈ objectsOfMembers here members, P object.2
  | [], _ => ⟨fun _ _ h => absurd h List.not_mem_nil, fun _ => trivial⟩
  | (key, value) :: rest, here => by
      rw [EachMember, objectsOfMembers, List.forall_mem_append, eachMember_iff here]
      refine and_congr_left fun _ => ?_
      cases Role.ofKeyword? key with
      | none => exact ⟨fun _ _ h => absurd h List.not_mem_nil, fun _ => trivial⟩
      | some role => exact eachObject_iff _

end

/-- What follows of the members of an object follows of those of every one. -/
theorem EachObject.imp {Q : Members → Prop} (hPQ : ∀ members, P members → Q members) {role : Role}
    {v : Json} (h : EachObject P role v) : EachObject Q role v :=
  (eachObject_iff "").mpr fun object hm => hPQ _ ((eachObject_iff "").mp h object hm)

theorem eachObject_arr (role : Role) :
    EachObject P role (.arr items) ↔ ∀ x ∈ items, EachObject P .schema x := by
  have hitems : EachItem P items ↔ ∀ x ∈ items, EachObject P .schema x := by
    induction items with
    | nil => exact ⟨fun _ _ h => absurd h List.not_mem_nil, fun _ => trivial⟩
    | cons x xs ih => rw [EachItem, ih, List.forall_mem_cons]
  cases role <;> exact hitems

theorem eachObject_map : EachObject P .map (.obj members) ↔
    ∀ entry ∈ members, EachObject P .schema entry.2 := by
  rw [EachObject]
  induction members with
  | nil => exact ⟨fun _ _ h => absurd h List.not_mem_nil, fun _ => trivial⟩
  | cons entry rest ih =>
      obtain ⟨name, value⟩ := entry
      rw [EachEntry, ih, List.forall_mem_cons]

theorem eachObject_schema : EachObject P .schema (.obj members) ↔ P members ∧
    ∀ entry ∈ members, ∀ role, Role.ofKeyword? entry.1 = some role →
      EachObject P role entry.2 := by
  have hmembers : EachMember P members ↔ ∀ entry ∈ members, ∀ role,
      Role.ofKeyword? entry.1 = some role → EachObject P role entry.2 := by
    induction members with
    | nil => exact ⟨fun _ _ h => absurd h List.not_mem_nil, fun _ => trivial⟩
    | cons entry rest ih =>
        obtain ⟨key, value⟩ := entry
        rw [EachMember, ih, List.forall_mem_cons]
        refine and_congr_left fun _ => ?_
        cases Role.ofKeyword? key with
        | none => exact ⟨fun _ _ h => (by cases h), fun _ => trivial⟩
        | some role => exact ⟨fun h _ he => Option.some.inj he ▸ h, fun h => h role rfl⟩
  rw [EachObject, hmembers]

mutual

theorem eachObject_of_everywhere : ∀ {role : Role} {v : Json}, v.Everywhere P → EachObject P role v
  | .map, .arr _, h | .schema, .arr _, h => eachItem_of_everywhere h
  | .map, .obj _, h => eachEntry_of_everywhere h.2
  | .schema, .obj _, h => ⟨h.1, eachMember_of_everywhere h.2⟩
  | .map, .null, _ | .map, .bool _, _ | .map, .num _, _ | .map, .str _, _
  | .schema, .null, _ | .schema, .bool _, _ | .schema, .num _, _ | .schema, .str _, _ => trivial

theorem eachItem_of_everywhere :
    ∀ {items : List Json}, Json.EverywhereItems P items → EachItem P items
  | [], _ => trivial
  | _ :: _, h => ⟨eachObject_of_everywhere h.1, eachItem_of_everywhere h.2⟩

theorem eachEntry_of_everywhere :
    ∀ {entries : List (String × Json)}, Json.EverywhereMembers P entries → EachEntry P entries
  | [], _ => trivial
  | (_, _) :: _, h => ⟨eachObject_of_everywhere h.1, eachEntry_of_everywhere h.2⟩

theorem eachMember_of_everywhere :
    ∀ {members : List (String × Json)}, Json.EverywhereMembers P members → EachMember P members
  | [], _ => trivial
  | (key, value) :: rest, h => by
      refine ⟨?_, eachMember_of_everywhere h.2⟩
      split
      · exact eachObject_of_everywhere h.1
      · trivial

end

end Schema

end SchemaForm
