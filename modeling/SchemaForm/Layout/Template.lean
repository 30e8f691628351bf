/-
Layout templates for array items and recursive references.

A template is a node without ids.  Placing it gives every node a new id, what a
node contains before the node itself; the pointers of a relative template are
continued from the place.  The library reserves a name while its template is
being built, so that a nested build of the same name stops there.
-/
import SchemaForm.Layout.Node
import SchemaForm.Pointer.Basic

namespace SchemaForm

/-- A node to be copied. -/
structure Template where
  node : Node
  /-- Whether its pointers start at the place where it is put. -/
  relative : Bool
deriving Inhabited, Repr

/-- Where a template is put. -/
structure Site where
  dataPointer : String
  layoutPointer : String
deriving Repr

namespace Site

/-- The layout pointer without its last wildcard. -/
def layoutBase (s : Site) : String :=
  (Pointer.listOfItem? s.layoutPointer).getD s.layoutPointer

/-- Continues the pointers of a control from the site. -/
def continued (s : Site) (c : Control) : Control :=
  { c with
    dataPointer := c.dataPointer.map (s.dataPointer ++ ·),
    layoutPointer := s.layoutBase ++ c.layoutPointer }

end Site

namespace Template

/-- The template of a node, ids left out. -/
def of (node : Node) (relative : Bool) : Template :=
  ⟨node.map fun c => { c with id := none }, relative⟩

/-- A control as it stands at a site. -/
def placedControl (t : Template) (site : Site) (id : Nat) (c : Control) : Control :=
  let c := { c with id := some id }
  if t.relative then site.continued c else c

mutual

/-- A copy of a node of the template; `last` is the last id given out, before and
after. -/
def placeNode (t : Template) (site : Site) (last : Nat) : Node → Node × Nat
  | .mk c items =>
      let (items, last) := placeAll t site last items
      (.mk (t.placedControl site (last + 1) c) items, last + 1)

def placeAll (t : Template) (site : Site) (last : Nat) : List Node → List Node × Nat
  | [] => ([], last)
  | n :: rest =>
      let (n, last) := placeNode t site last n
      let (rest, last) := placeAll t site last rest
      (n :: rest, last)

end

/-- A copy of the template at a site. -/
def place (t : Template) (site : Site) (last : Nat) : Node × Nat := t.placeNode site last t.node

end Template

/-- Templates by name; a reserved name has none yet. -/
abbrev Library := Table (Option Template)

namespace Library

/-- Whether the name has a template or is reserved. -/
def knows (l : Library) (name : String) : Bool := Table.has l name

def isReserved (l : Library) (name : String) : Bool :=
  match Table.get? l name with
  | some none => true
  | _ => false

/-- The stored template of a name. -/
def template? (l : Library) (name : String) : Option Template := (Table.get? l name).join

def reserve (l : Library) (name : String) : Library := Table.insert l name none

def store (l : Library) (name : String) (t : Template) : Library := Table.insert l name (some t)

def remove (l : Library) (name : String) : Library := Table.erase l name

/-- Changes every control of every template. -/
def mapControls (l : Library) (f : Control → Control) : Library :=
  l.map fun (name, t) => (name, t.map fun t => ⟨t.node.map f, t.relative⟩)

end Library

end SchemaForm
