/-
Writing the targets of references in their place.

A reference that does not come back to itself is replaced by what it names,
merged with the keywords beside it.  A recursive one whose target is being
expanded further up stays a reference, to the place where that copy lands.  An
`allOf` list is merged into the schema around it.
-/
import SchemaForm.Pointer.Access
import SchemaForm.Reference.Graph
import SchemaForm.Schema.Combine

namespace SchemaForm

namespace Expansion

open Schema (Role)

/-- A schema object under expansion: where it stands in the document and where it
lands in the result. -/
structure Frame where
  source : String
  place : String
deriving DecidableEq, Repr

/-- An expansion of one value: the frames above it, its source, its place, and
how it is read.  There is no result when the expansion does not end. -/
abbrev Expand := List Frame → String → String → Role → Json → Option Json

/-- The last touch to an expanded schema. -/
def finish (schema : Json) : Json := Schema.moveRequired (Schema.collapseAllOf schema)

/-- Whether a keyword is left out: the definitions of the document itself. -/
def isLeftOut (source key : String) : Bool :=
  source == "" && (key == "definitions" || key == "$defs")

/-- The items of a list, each at the place that `place` gives. -/
def expandItems (expand : Expand) (stack : List Frame) (source : String) (place : Nat → String)
    (items : List Json) : Option (List Json) :=
  items.zipIdx.mapM fun (item, i) => expand stack (Pointer.item source i) (place i) .schema item

/-- The schemas of a map from names to schemas. -/
def expandMap (expand : Expand) (stack : List Frame) (source place : String) (entries : Members) :
    Option Members :=
  entries.mapM fun (name, value) => do
    let value ← expand stack (Pointer.child source name) (Pointer.child place name) .schema value
    return (name, value)

/-- The value of one keyword.  The members of an `allOf` list land where the
schema around them does. -/
def expandKeyword (expand : Expand) (stack : List Frame) (source place key : String)
    (value : Json) : Option Json :=
  match Role.ofKeyword? key, key, value with
  | none, _, value => some value
  | some _, "allOf", .arr items =>
      (expandItems expand stack (Pointer.child source key) (fun _ => place) items).map .arr
  | some role, key, value =>
      expand stack (Pointer.child source key) (Pointer.child place key) role value

/-- The members of a schema object. -/
def expandMembers (expand : Expand) (stack : List Frame) (source place : String)
    (members : Members) : Option Members :=
  (members.filter fun member => !isLeftOut source member.1).mapM fun (key, value) => do
    return (key, ← expandKeyword expand stack source place key value)

/-- Where the copy of a target lands that is being expanded further up. -/
def openPlace? (graph : Graph) (stack : List Frame) (source target : String) : Option String :=
  if graph.isRecursive source then (stack.find? (·.source == target)).map Frame.place else none

/-- A schema object, with the reference it holds replaced where that is possible;
the frame of the object itself is the last one. -/
def expandSchema (root : Json) (graph : Graph) (expand : Expand) (stack : List Frame)
    (source place : String) (members : Members) : Option Json := do
  let expanded ← expandMembers expand stack source place members
  match Schema.reference? members with
  | none => return finish (.obj expanded)
  | some reference =>
      let target := Pointer.normalize reference
      let beside := Table.swapErase expanded "$ref"
      match openPlace? graph stack source target with
      | some copy => return finish (.obj (Table.insert beside "$ref" (.str ("#" ++ copy))))
      | none =>
          match root.at? target with
          | none => return finish (.obj beside)
          | some named =>
              let inlined ← expand stack target place .schema named
              if beside.isEmpty then return finish inlined
              else return finish (Schema.mergeAll [.obj beside, inlined])

/-- Expands a value, nesting at most as deep as the first argument says. -/
def expand (root : Json) (graph : Graph) : Nat → Expand
  | 0, _, _, _, _, _ => none
  | fuel + 1, stack, source, place, role, value =>
      match role, value with
      | _, .arr items =>
          (expandItems (expand root graph fuel) stack source (Pointer.item place) items).map .arr
      | .map, .obj entries =>
          (expandMap (expand root graph fuel) stack source place entries).map .obj
      | .schema, .obj members =>
          expandSchema root graph (expand root graph fuel) (stack ++ [⟨source, place⟩]) source place
            members
      | _, other => some other

/-- How deep an expansion that ends can nest.  Without a new source on the stack
no source comes back in the same role, and there are as many sources as values
in the document. -/
def depthLimit (root : Json) : Nat := 2 * (root.size + 1) * (root.size + 2)

/-- Expands a value of the document that lands at the given place. -/
def run? (root : Json) (graph : Graph) (value : Json) (place : String) : Option Json :=
  expand root graph (depthLimit root) [] place place .schema value

end Expansion

end SchemaForm
