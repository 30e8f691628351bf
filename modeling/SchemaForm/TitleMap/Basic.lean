/-
Title maps: the labelled options of a selection control.
-/
import SchemaForm.Json.Basic

namespace SchemaForm

namespace TitleMap

/-- One option: a label, the value it stands for, and perhaps a group label. -/
structure Choice where
  name : String
  value : Json
  group : Option String
deriving Inhabited, Repr

/-- An option, or a bucket of options under one group label. -/
inductive Entry where
  | choice (choice : Choice)
  | bucket (group : String) (choices : List Choice)
deriving Inhabited, Repr

/-- An option without a group. -/
def Choice.plain (name : String) (value : Json) : Choice := ⟨name, value, none⟩

/-- Whether an entry has an option that clears the selection. -/
def Entry.hasEmpty : Entry → Bool
  | .choice c => c.value.isNull
  | .bucket _ choices => choices.any (·.value.isNull)

/-- Whether an entry belongs to a group. -/
def Entry.isGrouped : Entry → Bool
  | .choice c => c.group.isSome
  | .bucket _ _ => true

/-! ## As JSON -/

def Choice.toJson (c : Choice) : Json :=
  .obj <| [("name", .str c.name), ("value", c.value)]
    ++ match c.group with
      | some group => [("group", .str group)]
      | none => []

def Entry.toJson : Entry → Json
  | .choice c => c.toJson
  | .bucket group choices =>
      .obj [("group", .str group), ("items", .arr (choices.map Choice.toJson))]

/-- A group label: a string, or null for none. -/
def groupOf? : Option Json → Option (Option String)
  | none => some none
  | some .null => some none
  | some (.str group) => some (some group)
  | some _ => none

/-- Reads an option, given as an object or as the list of its parts in order.
Only the label has to be there. -/
def Choice.ofJson? : Json → Option Choice
  | .obj members => do
      let name ← (Table.get? members "name").bind Json.str?
      let group ← groupOf? (Table.get? members "group")
      return ⟨name, (Table.get? members "value").getD .null, group⟩
  | .arr (.str name :: parts) =>
      if parts.length ≤ 2 then
        (groupOf? parts[1]?).map fun group => ⟨name, parts[0]?.getD .null, group⟩
      else none
  | _ => none

/-- Reads a bucket: a group label and a list of readable options. -/
def bucket? (j : Json) : Option Entry := do
  let members ← j.obj?
  let group ← (Table.get? members "group").bind Json.str?
  let items ← (Table.get? members "items").bind Json.arr?
  return .bucket group (← items.mapM Choice.ofJson?)

/-- Reads an entry, as a bucket where it can be one. -/
def Entry.ofJson? (j : Json) : Option Entry :=
  (bucket? j).or ((Choice.ofJson? j).map .choice)

end TitleMap

end SchemaForm
