/-
What an entry of a layout description says about its own control.
-/
import SchemaForm.Layout.Node
import SchemaForm.Pointer.ObjectPath

namespace SchemaForm

namespace Description

/-- The keys of an entry that describe the control itself or are left alone; every
other key is an option. -/
def ownKeys : List String := [
  "_id", "$ref", "arrayItem", "arrayItemType", "dataPointer", "dataType", "items", "tabs", "key",
  "layoutPointer", "name", "options", "recursiveReference", "type", "widget"]

/-- An entry taken apart. -/
structure Parts where
  type : String := ""
  widget : Option String := none
  name : Option String := none
  dataPointer : Option String := none
  key : Option String := none
  options : Members := []
  /-- The members that are options by themselves. -/
  extra : Members := []
deriving Inhabited

/-- Takes one member of an entry in. -/
def Parts.take (p : Parts) (key : String) (value : Json) : Parts :=
  match key with
  | "type" => { p with type := value.str?.getD "" }
  | "widget" => { p with widget := value.str? }
  | "name" => { p with name := value.str? }
  | "dataPointer" => { p with dataPointer := value.str? }
  | "key" => { p with key := value.str? }
  | "options" =>
      let given := (value.obj?.getD []).filter fun option => !option.2.isNull
      { p with options := Table.insertAll p.options given }
  | _ => if ownKeys.contains key then p else { p with extra := Table.insert p.extra key value }

/-- An option called `legend` becomes the title where there is none. -/
def legendAsTitle (options : Members) : Members :=
  match Table.get? options "title", Table.get? options "legend" with
  | none, some legend => Table.insert (Table.swapErase options "legend") "title" legend
  | _, _ => options

/-- The parts of an object entry, with all its options together. -/
def partsOf (members : Members) : Parts :=
  let p := members.foldl (fun (p : Parts) member => p.take member.1 member.2) {}
  { p with
    type := if p.type = "" then p.widget.getD "" else p.type,
    options := legendAsTitle (Table.insertAll p.options p.extra) }

/-- The parts of an entry.  A text is a pointer or a dotted path; anything else
than a text or an object is no entry. -/
def ofJson? : Json → Option Parts
  | .obj members => some (partsOf members)
  | .str text =>
      if text ≠ "" ∧ Pointer.isPointer text then some { dataPointer := some text }
      else some { key := some text }
  | _ => none

/-- The characters before the last slash that a minus sign follows. -/
def beforeLastItemFrom? : List Char → Option (List Char)
  | [] => none
  | c :: rest =>
      match beforeLastItemFrom? rest with
      | some before => some (c :: before)
      | none => if c = '/' ∧ rest.head? = some '-' then some [] else none

/-- The part of a pointer before the last segment that begins with a wildcard. -/
def beforeLastItem? (pointer : String) : Option String :=
  (beforeLastItemFrom? pointer.toList).map String.ofList

mutual

/-- The first data pointer of a list position in a node or below it. -/
def itemPointer? : Node → Option String
  | .mk c items =>
      match c.dataPointer.filter fun p => (beforeLastItem? p).isSome with
      | some pointer => some pointer
      | none => itemPointerAmong? items

/-- The first data pointer of a list position among nodes or below them. -/
def itemPointerAmong? : List Node → Option String
  | [] => none
  | n :: rest => (itemPointer? n).or (itemPointerAmong? rest)

end

/-- The data pointer of an entry: its own, the one its key stands for, or, for an
array, the one that an entry within it is an item of. -/
def boundTo? (p : Parts) (children : List Node) : Option String :=
  p.dataPointer.or <|
    match p.key with
    | some key => some (if key = "*" then key else Pointer.genericOfPath key)
    | none =>
        if p.type.endsWith "array" then (itemPointerAmong? children).bind beforeLastItem? else none

end Description

end SchemaForm
