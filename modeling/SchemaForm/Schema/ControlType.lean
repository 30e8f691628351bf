/-
The type of control that suits a schema.
-/
import SchemaForm.Pointer.Access
import SchemaForm.Schema.OneOf
import SchemaForm.Schema.TypeName

namespace SchemaForm

namespace Schema

/-- Where a schema may name a control type, the strongest place first. -/
def controlTypePlaces : List (List String) := [
  ["x-schema-form", "type"],
  ["x-schema-form", "widget", "component"],
  ["x-schema-form", "widget"],
  ["widget", "component"],
  ["widget"]]

/-- Where a schema may ask for the inline form of a control, the strongest place first. -/
def inlinePlaces : List (List String) := [
  ["inline"],
  ["x-schema-form", "inline"],
  ["x-schema-form", "options", "inline"],
  ["x-schema-form", "widget", "inline"],
  ["x-schema-form", "widget", "component", "inline"],
  ["x-schema-form", "widget", "component", "options", "inline"],
  ["widget", "inline"],
  ["widget", "component", "inline"],
  ["widget", "component", "options", "inline"]]

/-- The option or schema value that decides about the inline form. -/
def inlineFlag? (schema : Json) (options : Members) : Option Json :=
  ((Table.get? options "inline").filter (!·.isNull)).or
    (inlinePlaces.findSome? fun place => (schema.follow? place).filter (!·.isNull))

/-- Turns checkboxes and radios into their inline forms where that is asked for. -/
def inlineType (controlType : String) (schema : Json) (options : Members) : String :=
  let isRadio := controlType.startsWith "radio"
  if !(isRadio || controlType.startsWith "checkbox") then controlType
  else
    match inlineFlag? schema options with
    | some (.bool true) => if isRadio then "radios-inline" else "checkboxes-inline"
    | _ => controlType

/-- The control type that the schema names. -/
def namedControl? (schema : Json) : Option String :=
  controlTypePlaces.findSome? fun place => (schema.follow? place).bind Json.str?

/-- The control of an object. -/
def objectControl? (schema : Json) : Option String :=
  if schema.has "properties" then some "section"
  else if schema.has "$ref" || (schema.follow? ["additionalProperties", "$ref"]).isSome then
    some "$ref"
  else none

/-- The control of an array: a group of checkboxes where the items have listed
values and there may be more than one. -/
def arrayControl (schema : Json) (options : Members) : String :=
  let items := ((schema.get? "items").filter (!·.isNull)).or (schema.get? "additionalItems")
  let single :=
    match (schema.get? "maxItems").bind Json.real?, Binary64.ofNat? 1 with
    | some n, some one => n.same one
    | _, _ => false
  if items.any (·.has "enum") && !single then inlineType "checkboxes" schema options else "array"

/-- The control of a number: a range where it has steps and both limits. -/
def numberControl (schema : Json) (type : String) : String :=
  if (type == "integer" || schema.has "multipleOf") && schema.has "maximum" && schema.has "minimum"
  then "range" else type

/-- The control of a string, by its format. -/
def stringControl (schema : Json) : String :=
  match (schema.get? "format").bind Json.str? with
  | some "color" => "color"
  | some "date" => "date"
  | some "date-time" => "datetime-local"
  | some "email" => "email"
  | some "uri" => "url"
  | _ => "text"

/-- The control of a schema whose type tells nothing. -/
def plainControl (schema : Json) : String := if schema.has "$ref" then "$ref" else "text"

/-- Whether the values of a field are chosen from a list. -/
def isSelection (schema : Json) (options : Members) : Bool :=
  schema.has "enum" || Table.has options "titleMap" || hasOneOfChoices schema

/-- The control type of a schema, given the options that the node already has. -/
def controlType? (schema : Json) (options : Members) : Option String :=
  match namedControl? schema with
  | some name => some (inlineType name schema options)
  | none =>
      match typeName? schema with
      | none => some (plainControl schema)
      | some "boolean" => some "checkbox"
      | some "object" => objectControl? schema
      | some "array" => some (arrayControl schema options)
      | some "null" => some "hidden"
      | some type =>
          if isSelection schema options then some "select"
          else if type == "number" || type == "integer" then some (numberControl schema type)
          else if type == "string" then some (stringControl schema)
          else some (plainControl schema)

end Schema

end SchemaForm
