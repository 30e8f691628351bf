/-
The type of a schema as one name.
-/
import SchemaForm.Json.Basic

namespace SchemaForm

namespace Schema

/-- The most inclusive name of a list of types.  An object or an array counts
only where the schema says what it holds. -/
def chooseType (schema : Json) (types : List Json) : String :=
  let among (name : String) := types.any (·.str? == some name)
  if among "object" && schema.has "properties" then "object"
  else if among "array" && schema.has "items" then "array"
  else if among "string" then "string"
  else if among "number" then "number"
  else if among "integer" then "integer"
  else if among "boolean" then "boolean"
  else "null"

/-- The type of a schema, if it names any. -/
def typeName? (schema : Json) : Option String :=
  match schema.get? "type" with
  | some (.str name) => some name
  | some (.arr types) => some (chooseType schema types)
  | _ => none

/-- Whether the schema has exactly the given name as its type. -/
def isTyped (schema : Json) (name : String) : Bool :=
  (schema.get? "type").bind Json.str? == some name

end Schema

end SchemaForm
