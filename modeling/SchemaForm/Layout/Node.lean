/-
The nodes of a layout: controls, and what they contain.
-/
import SchemaForm.TitleMap.Basic

namespace SchemaForm

/-- How an array item came about: from a fixed position or as one of a list. -/
inductive ItemKind where
  | tuple
  | list
deriving DecidableEq, Repr

/-- One control of a form, without what it contains. -/
structure Control where
  /-- Absent in templates. -/
  id : Option Nat := none
  type : String := ""
  name : Option String := none
  /-- The generic pointer of the data that the control is bound to. -/
  dataPointer : Option String := none
  dataType : Option String := none
  /-- The generic pointer of the control's place in the layout. -/
  layoutPointer : String := ""
  options : Members := []
  arrayItem : Bool := false
  itemKind : Option ItemKind := none
  recursive : Bool := false
  /-- The template that the control expands from. -/
  reference : Option String := none
  titleMap : Option (List TitleMap.Entry) := none
  widget : Option String := none
deriving Inhabited, Repr

namespace Control

/-- The title option, when it is a text. -/
def title? (c : Control) : Option String := (Table.get? c.options "title").bind Json.str?

/-- A truth-valued option, or a default where there is none. -/
def flag (c : Control) (key : String) (default : Bool) : Bool :=
  ((Table.get? c.options key).bind Json.bool?).getD default

/-- Whether the control stands for an item that is still to be added. -/
def isReference (c : Control) : Bool := c.type == "$ref"

def setOption (c : Control) (key : String) (value : Json) : Control :=
  { c with options := Table.insert c.options key value }

end Control

/-- A control with the nodes it contains. -/
inductive Node where
  | mk (control : Control) (items : List Node)
deriving Inhabited, Repr

namespace Node

def control : Node → Control
  | mk c _ => c

def items : Node → List Node
  | mk _ items => items

/-- The node with its control changed. -/
def modify (f : Control → Control) : Node → Node
  | mk c items => mk (f c) items

/-- The node with other contents. -/
def withItems (n : Node) (items : List Node) : Node := mk n.control items

mutual

/-- The number of nodes in a node, itself included. -/
def count : Node → Nat
  | mk _ items => 1 + countAll items

def countAll : List Node → Nat
  | [] => 0
  | n :: rest => count n + countAll rest

end

mutual

/-- Changes every control. -/
def map (f : Control → Control) : Node → Node
  | mk c items => mk (f c) (mapAll f items)

def mapAll (f : Control → Control) : List Node → List Node
  | [] => []
  | n :: rest => map f n :: mapAll f rest

end

mutual

/-- The controls, a container before what it contains. -/
def controls : Node → List Control
  | mk c items => c :: controlsAll items

def controlsAll : List Node → List Control
  | [] => []
  | n :: rest => controls n ++ controlsAll rest

end

mutual

/-- The first node, a container before what it contains, with the given data pointer. -/
def find? (dataPointer : String) : Node → Option Node
  | mk c items =>
      if c.dataPointer = some dataPointer then some (mk c items) else findAll? dataPointer items

def findAll? (dataPointer : String) : List Node → Option Node
  | [] => none
  | n :: rest => (find? dataPointer n).or (findAll? dataPointer rest)

end

end Node

end SchemaForm
