/-
The validation keywords that a control passes on, each with its arguments.
-/
import SchemaForm.Json.Basic
import SchemaForm.Schema.TypeName

namespace SchemaForm

namespace Schema

/-- Each given keyword that the schema has, with its value as the only argument. -/
def copied (schema : Json) (keywords : List String) : Members :=
  keywords.filterMap fun key => (schema.get? key).map fun value => (key, .arr [value])

/-- A limit with the flag that tells whether it is exclusive. -/
def limit (schema : Json) (key exclusive : String) : Members :=
  match schema.get? key with
  | some bound => [(key, .arr [bound, .bool (schema.get? exclusive == some (.bool true))])]
  | none => []

/-- The validators of the schema's type. -/
def typeValidators (schema : Json) : Members :=
  match (schema.get? "type").bind Json.str? with
  | some "string" => copied schema ["pattern", "format", "minLength", "maxLength"]
  | some "number" | some "integer" =>
      limit schema "minimum" "exclusiveMinimum" ++ limit schema "maximum" "exclusiveMaximum"
        ++ copied schema ["multipleOf", "type"]
  | some "object" => copied schema ["minProperties", "maxProperties", "dependencies"]
  | some "array" => copied schema ["minItems", "maxItems", "uniqueItems"]
  | _ => []

/-- The validators of a control. -/
def validators (schema : Json) : Members := typeValidators schema ++ copied schema ["enum"]

end Schema

end SchemaForm
