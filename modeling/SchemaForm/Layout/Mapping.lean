/-
Mapping trees level by level, what a node contains before the node itself.

Each step may keep a node, replace it by several, or drop it, and is told the
position and the pointer that its result will have: `/3/items/0` is the first
node within the fourth.
-/
import SchemaForm.Layout.Node
import SchemaForm.Pointer.Basic

namespace SchemaForm

/-- What a step makes of one node. -/
inductive Mapped (α : Type) where
  | one (node : α)
  | many (nodes : List α)
  | drop
deriving Repr

/-- The nodes that a step makes. -/
def Mapped.toList {α : Type} : Mapped α → List α
  | one node => [node]
  | many nodes => nodes
  | drop => []

/-- An entry of a layout description; a branch has a list of entries of its own,
already taken out of its item. -/
inductive Entry where
  | leaf (item : Json)
  | branch (item : Json) (children : List Entry)
deriving Inhabited, Repr

namespace Entry

mutual

/-- An entry with its children, listed under `items` or else under `tabs`. -/
def ofJson : Json → Entry
  | .obj members =>
      match childrenUnder "items" members with
      | some children => .branch (.obj (Table.swapErase members "items")) children
      | none =>
          match childrenUnder "tabs" members with
          | some children => .branch (.obj (Table.swapErase members "tabs")) children
          | none => .leaf (.obj members)
  | item => .leaf item

/-- The children under a key; a single one need not be in a list. -/
def childrenUnder (key : String) : List (String × Json) → Option (List Entry)
  | [] => none
  | (name, .arr items) :: rest =>
      if name = key then some (ofItems items) else childrenUnder key rest
  | (name, value) :: rest => if name = key then some [ofJson value] else childrenUnder key rest

def ofItems : List Json → List Entry
  | [] => []
  | x :: xs => ofJson x :: ofItems xs

end

/-- A step that builds something from an entry, its built children, if it had a
list of them, its position and its pointer. -/
abbrev Step (m : Type → Type) (β : Type) :=
  Json → Option (List β) → Nat → String → m (Mapped β)

variable {m : Type → Type} [Monad m] {β : Type}

mutual

/-- Maps one entry. -/
def map (f : Step m β) (above : String) (index : Nat) : Entry → m (Mapped β)
  | leaf item => f item none index (Pointer.item above index)
  | branch item children => do
      let built ← mapAll f (Pointer.item above index ++ "/items") 0 children
      f item (some built) index (Pointer.item above index)

/-- Maps a list of entries from left to right; `index` is the position of the
first result. -/
def mapAll (f : Step m β) (above : String) (index : Nat) : List Entry → m (List β)
  | [] => pure []
  | entry :: rest => do
      let nodes := (← map f above index entry).toList
      let more ← mapAll f above (index + nodes.length) rest
      pure (nodes ++ more)

end

end Entry

namespace Node

/-- A step that makes something of a node whose contents are already mapped. -/
abbrev Step (m : Type → Type) := Node → Nat → String → m (Mapped Node)

variable {m : Type → Type} [Monad m]

mutual

/-- Maps one node. -/
def mapTree (f : Step m) (above : String) (index : Nat) : Node → m (Mapped Node)
  | mk c items => do
      let mapped ← mapForest f (Pointer.item above index ++ "/items") 0 items
      f (mk c mapped) index (Pointer.item above index)

/-- Maps a list of nodes from left to right; `index` is the position of the
first result. -/
def mapForest (f : Step m) (above : String) (index : Nat) : List Node → m (List Node)
  | [] => pure []
  | n :: rest => do
      let nodes := (← mapTree f above index n).toList
      let more ← mapForest f above (index + nodes.length) rest
      pure (nodes ++ more)

end

end Node

end SchemaForm
