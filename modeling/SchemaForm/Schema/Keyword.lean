/-
The keywords of a schema document and what their values are.

A keyword's value is data, a schema (or a list of schemas), or a map from names
to schemas.  `Schema.objects` lists the schema objects of a document, parents
first; nothing under a data keyword is one.
-/
import SchemaForm.Json.Basic
import SchemaForm.Pointer.Basic

namespace SchemaForm

namespace Schema

/-- The keywords whose values are data. -/
def dataKeywords : List String :=
  ["enum", "const", "default", "examples", "required", "titleMap", "enumNames",
    "x-schema-form", "ui:order", "ui:widget"]

/-- The keywords whose values map names to schemas. -/
def mapKeywords : List String :=
  ["properties", "patternProperties", "definitions", "$defs", "dependencies"]

/-- The keywords that describe structure and are never options of a control. -/
def structuralKeywords : List String :=
  ["additionalProperties", "additionalItems", "properties", "items", "required", "type",
    "x-schema-form", "$ref"]

/-- How a value within a schema document is read. -/
inductive Role where
  | schema
  | map
deriving DecidableEq, Repr

/-- How the value of a keyword is read; not at all when it is data. -/
def Role.ofKeyword? (key : String) : Option Role :=
  if dataKeywords.contains key then none
  else if mapKeywords.contains key then some .map
  else some .schema

mutual

/-- The schema objects from `here` down, each with its pointer. -/
def objectsFrom (here : String) : Role → Json → List (String × Members)
  | _, .arr items => objectsOfItems here 0 items
  | .map, .obj members => objectsOfMap here members
  | .schema, .obj members => (here, members) :: objectsOfMembers here members
  | _, _ => []

def objectsOfItems (here : String) (index : Nat) : List Json → List (String × Members)
  | [] => []
  | x :: xs =>
      objectsFrom (Pointer.item here index) .schema x ++ objectsOfItems here (index + 1) xs

def objectsOfMap (here : String) : List (String × Json) → List (String × Members)
  | [] => []
  | (name, value) :: rest =>
      objectsFrom (Pointer.child here name) .schema value ++ objectsOfMap here rest

def objectsOfMembers (here : String) : List (String × Json) → List (String × Members)
  | [] => []
  | (key, value) :: rest =>
      (match Role.ofKeyword? key with
        | some role => objectsFrom (Pointer.child here key) role value
        | none => []) ++ objectsOfMembers here rest

end

/-- The schema objects of a document. -/
def objects (document : Json) : List (String × Members) := objectsFrom "" .schema document

/-- The pointer text under `$ref`, if there is one. -/
def reference? (members : Members) : Option String :=
  ((Table.get? members "$ref").bind Json.str?).filter Pointer.isPointer

end Schema

end SchemaForm
