/-
Paths into configuration values, and how a value is written at the end of one.

A key such as `form.form_defaults.rows[2]` is a path: names after points, and
positions in brackets.  Writing at a path makes what is missing on the way to its
end, so only a position that its list cannot have is refused.
-/
import SchemaForm.Settings.Value
import SchemaForm.Text.Pieces

namespace SchemaForm

namespace Setting

/-- A step from a value to a part of it. -/
inductive Step where
  /-- The entry of a table. -/
  | entry (name : String)
  /-- The item of a list; a position below zero counts from the end. -/
  | item (position : Int)
deriving DecidableEq, Repr

/-! ## Written paths -/

/-- The characters of a name within a path. -/
def isNameChar (c : Char) : Bool := c.isAlphanum || c == ' ' || c == '_' || c == '-'

/-- The characters that may stand around a position. -/
def isGap (c : Char) : Bool := c == ' ' || c == '\t'

/-- The position in brackets, of which the opening one has been read. -/
def position? (cs : List Char) : Option Int :=
  match cs.reverse with
  | ']' :: inner =>
      match (inner.dropWhile isGap).reverse.dropWhile isGap with
      | '+' :: _ => none
      | written => int? written
  | _ => none

/-- The steps between two points: a name, then any number of positions. -/
def stepsOfPiece? (cs : List Char) : Option (List Step) :=
  match Text.pieces '[' cs with
  | [] => none
  | name :: positions =>
      if !name.isEmpty && name.all isNameChar then
        (positions.mapM position?).map fun found => .entry (String.ofList name) :: found.map .item
      else none

/-- The steps of a key; a key that is no path names an entry as it stands. -/
def stepsOf (key : String) : List Step :=
  match (Text.pieces '.' key.toList).mapM stepsOfPiece? with
  | some steps => steps.flatten
  | none => [.entry key]

/-! ## Writing -/

/-- The entries of a table; any other value has none. -/
def entriesOf : Setting → Table Setting
  | .table entries => entries
  | _ => []

/-- The items of a list; any other value has none. -/
def itemsOf : Setting → List Setting
  | .list items => items
  | _ => []

mutual

/-- Writes one entry into a value, which becomes a table; a table is merged into
what is there. -/
def write (root : Setting) (key : String) : Setting → Setting
  | .table entries =>
      let old := (Table.get? (entriesOf root) key).getD (.table [])
      .table (Table.insert (entriesOf root) key (writeAll old entries))
  | value => .table (Table.insert (entriesOf root) key value)

def writeAll (root : Setting) : List (String × Setting) → Setting
  | [] => root
  | (key, value) :: rest => writeAll (write root key value) rest

end

/-- The number of items to which a list can be filled up. -/
def reach : Nat := Nat.pow 2 24

/-- The place of a position in a list of so many items: none before its first
item, and none that the list could not be filled up to. -/
def place? (size : Nat) (position : Int) : Option Nat :=
  let place := if position < 0 then size + position else position
  if 0 ≤ place ∧ place < reach then some place.toNat else none

/-- Writes an item; a list that is too short is filled up with nothing. -/
def setItem (items : List Setting) (place : Nat) (value : Setting) : List Setting :=
  if place < items.length then items.set place value
  else items ++ List.replicate (place - items.length) .nothing ++ [value]

/-- Writes a value at the end of a path. What is there is merged with a table
written to an entry, and replaced in every other case; on the way, a value that
is no table or no list where the path needs one becomes an empty one. -/
def writeAt? (value : Setting) : List Step → Setting → Option Setting
  | [], root => some root
  | [.entry name], root => some (write root name value)
  | .entry name :: rest, root => do
      let old := (Table.get? (entriesOf root) name).getD .nothing
      return .table (Table.insert (entriesOf root) name (← writeAt? value rest old))
  | [.item position], root => do
      let items := itemsOf root
      return .list (setItem items (← place? items.length position) value)
  | .item position :: rest, root => do
      let items := itemsOf root
      let place ← place? items.length position
      return .list (setItem items place (← writeAt? value rest (items[place]?.getD .nothing)))

end Setting

end SchemaForm
