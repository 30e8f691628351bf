/-
Layouts as JSON.

Absent parts of a node are left out, except the list of its items and the widget,
which stands in a list of at most one name.
-/
import SchemaForm.Layout.Context

namespace SchemaForm

/-- A member that is left out when there is no value. -/
def optionalMember (key : String) (value : Option Json) : Members :=
  match value with
  | some value => [(key, value)]
  | none => []

/-- A list of at most one value. -/
def Json.ofOption (value : Option Json) : Json := .arr value.toList

def ItemKind.name : ItemKind → String
  | .tuple => "tuple"
  | .list => "list"

/-- The members of a control before and after those that depend on its contents. -/
def Control.toMembers (c : Control) : Members :=
  optionalMember "_id" (c.id.map Json.nat) ++ [("type", .str c.type)]
    ++ optionalMember "name" (c.name.map .str)
    ++ optionalMember "dataPointer" (c.dataPointer.map .str)
    ++ optionalMember "dataType" (c.dataType.map .str)
    ++ [("layoutPointer", .str c.layoutPointer), ("options", .obj c.options),
      ("arrayItem", .bool c.arrayItem)]
    ++ optionalMember "arrayItemType" (c.itemKind.map fun kind => .str kind.name)
    ++ [("recursiveReference", .bool c.recursive)]
    ++ optionalMember "$ref" (c.reference.map .str)
    ++ optionalMember "titleMap"
      (c.titleMap.map fun entries => .arr (entries.map TitleMap.Entry.toJson))
    ++ [("widget", Json.ofOption (c.widget.map .str))]

namespace Node

mutual

def toJson : Node → Json
  | mk c items => .obj (c.toMembers ++ [("items", .arr (toJsonAll items))])

def toJsonAll : List Node → List Json
  | [] => []
  | n :: rest => toJson n :: toJsonAll rest

end

end Node

/-- The members of bounds. -/
def ArrayBounds.toMembers (b : ArrayBounds) : Members := b.writeOptions []

def DataEntry.toJson (e : DataEntry) : Json :=
  .obj <| optionalMember "schemaPointer" (e.schemaPointer.map .str)
    ++ optionalMember "inputType" (e.inputType.map .str)
    ++ [("disabled", .bool e.disabled)]
    ++ ((e.bounds.map ArrayBounds.toMembers).getD [])
    ++ if e.validators.isEmpty then [] else [("validators", .obj e.validators)]

def DataMap.toJson (m : DataMap) : Json := .obj (m.map fun (key, e) => (key, e.toJson))

def Template.toJson (t : Template) : Json :=
  .obj [("relative", .bool t.relative), ("node", t.node.toJson)]

/-- The templates with their names, null for a name that is only reserved. -/
def Library.toJson (l : Library) : Json :=
  .arr ((l.mergeSort fun a b => !(b.1 < a.1)).map fun (name, t) =>
    .arr [.str name, (t.map Template.toJson).getD .null])

end SchemaForm
