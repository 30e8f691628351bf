/-
A schema with its references expanded, and the tables read off it.
-/
import SchemaForm.Reference.Expansion
import SchemaForm.Reference.Shortening
import SchemaForm.Schema.Lookup

namespace SchemaForm

/-- An expanded schema and what the layout needs to know about it. -/
structure Resolved where
  /-- The schema with its references expanded. -/
  schema : Json
  /-- The schemas that references lead to, by pointer: those of the document and
  those of the expanded schema. -/
  library : Table Json
  /-- For the schema pointer of each remaining reference the pointer it names. -/
  schemaFolds : FoldRules
  /-- The same as data pointers. -/
  dataFolds : FoldRules
  /-- The number of fixed positions of each array. -/
  arrays : ArrayTable
  graph : Graph
deriving Inhabited

namespace Resolved

/-- The schema at a pointer into the expanded schema, or the one in the library. -/
def schemaAt? (r : Resolved) (pointer : String) : Option Json :=
  (r.schema.at? pointer).or (Table.get? r.library (Pointer.normalize pointer))

/-- Records the reference of a schema object, if it has one. -/
def noteReference (r : Resolved) (place : String) (members : Members) : Resolved :=
  match (Table.get? members "$ref").bind Json.str? with
  | none => r
  | some reference =>
      let target := Pointer.normalize reference
      let library :=
        match r.schema.at? target with
        | some found => Table.insertSorted r.library target found
        | none => r.library
      let dataFolds :=
        match Schema.toDataPointer? r.schema place, Schema.toDataPointer? r.schema target with
        | some source, some above => Table.insertSorted r.dataFolds source above
        | _, _ => r.dataFolds
      { r with
        library, dataFolds,
        schemaFolds := Table.insertSorted r.schemaFolds place target }

/-- The length of a tuple of item schemas. -/
def tupleLength (members : Members) : Nat :=
  match Table.get? members "items" with
  | some (.arr tuple) => tuple.length
  | _ => 0

/-- Records the fixed positions of an array schema. -/
def noteArray (r : Resolved) (place : String) (members : Members) : Resolved :=
  if Schema.isTyped (.obj members) "array"
      && (Table.has members "items" || Table.has members "additionalItems") then
    match Schema.toDataPointer? r.schema place with
    | some pointer => { r with arrays := Table.insert r.arrays pointer (tupleLength members) }
    | none => r
  else r

/-- Records what a schema object of the expanded schema tells. -/
def note (r : Resolved) (object : String × Members) : Resolved :=
  noteArray (noteReference r object.1 object.2) object.1 object.2

/-- The expanded targets of the document's references. -/
def targets? (document : Json) (graph : Graph) : Option (Table Json) :=
  graph.targets.foldlM
    (fun library target =>
      match document.at? target with
      | some named =>
          (Expansion.run? document graph named target).map (Table.insertSorted library target)
      | none => some library)
    []

/-- Expands the references of a document, unless that does not end. -/
def of? (document : Json) : Option Resolved := do
  let graph := Graph.of document
  let schema ← Expansion.run? document graph document ""
  let library ← targets? document graph
  return (Schema.objects schema).foldl note ⟨schema, library, [], [], [], graph⟩

end Resolved

end SchemaForm
