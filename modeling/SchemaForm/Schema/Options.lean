/-
The options of a control, gathered from the schema, the form and the node.
-/
import SchemaForm.Schema.ControlType
import SchemaForm.Schema.Keyword
import SchemaForm.Schema.OneOf

namespace SchemaForm

namespace Schema

/-- An option name without a leading `ui:`, in any case of letters. -/
def optionName (key : String) : String :=
  match key.toList with
  | a :: b :: c :: rest =>
      if a.toLower = 'u' ∧ b.toLower = 'i' ∧ c = ':' then String.ofList rest else key
  | _ => key

/-- Writes the members of a source into options, except null values and skipped keys. -/
def layer (skip : List String) (options source : Members) : Members :=
  source.foldl
    (fun acc (key, value) =>
      if value.isNull || skip.contains key then acc else Table.insert acc (optionName key) value)
    options

/-- The members of the object at a place of the schema, if there is one. -/
def objectAt (schema : Json) (place : List String) : Members :=
  ((schema.follow? place).bind Json.obj?).getD []

/-- The sources of a node's options with the keys that each leaves out, the
weakest first. -/
def optionSources (schema : Json) (defaults own : Members) : List (List String × Members) := [
  ([], defaults),
  ([], objectAt schema ["ui:widget", "options"]),
  ([], objectAt schema ["ui:widget"]),
  (structuralKeywords, objectAt schema []),
  ([], objectAt schema ["x-schema-form", "options"]),
  (["items", "options"], objectAt schema ["x-schema-form"]),
  ([], own)]

/-- The options of all sources, each over the ones before it. -/
def layered (schema : Json) (defaults own : Members) : Members :=
  (optionSources schema defaults own).foldl (fun acc (skip, source) => layer skip acc source) []

/-- Options as the value of a title map. -/
def choicesToJson (choices : List TitleMap.Choice) : Json :=
  .arr (choices.map TitleMap.Choice.toJson)

/-- Adds a title map taken from the item schema: its own, the names of its listed
values, or its branches. -/
def withItemTitles (items : Json) (flat : Option Bool) (options : Members) : Members :=
  match items.get? "titleMap", items.get? "enum" with
  | some titleMap, _ => Table.insert options "titleMap" titleMap
  | none, some values =>
      let options := Table.insert options "enum" values
      match (Table.get? options "enumNames").or (items.get? "enumNames") with
      | some names => Table.insert options "titleMap" names
      | none => options
  | none, none =>
      match oneOfTitleMap? items flat with
      | some choices => Table.insert options "titleMap" (choicesToJson choices)
      | none => options

/-- Adds a title map taken from the schema's branches, from the names of listed
values, or from the item schema. -/
def withTitleMap (schema : Json) (options : Members) : Members :=
  let flat := (Table.get? options "flatList").bind Json.bool?
  match oneOfTitleMap? schema flat with
  | some choices => Table.insert options "titleMap" (choicesToJson choices)
  | none =>
      if Table.has options "enum" then
        match Table.get? options "enumNames" with
        | some names => Table.insert options "titleMap" names
        | none => options
      else
        match (schema.get? "items").filter Json.isObj with
        | some items => withItemTitles items flat options
        | none => options

/-- Gives an integer the step one where it has none. -/
def withStep (schema : Json) (options : Members) : Members :=
  if typeName? schema == some "integer" && (Table.get? options "multipleOf").all Json.isNull then
    Table.insert options "multipleOf" (Json.nat 1)
  else options

/-- The options that may hold a source of suggestions, the strongest first. -/
def suggestionPlaces : List (List String) :=
  [["autocomplete"], ["tagsinput"], ["tagsinput", "typeahead"]]

/-- Copies the first option that has a source of suggestions. -/
def withTypeahead (options : Members) : Members :=
  let place := suggestionPlaces.find? fun place =>
    ((Json.obj options).follow? (place ++ ["source"])).isSome
  match place.bind (Json.obj options).follow? with
  | some suggestions => Table.insert options "typeahead" suggestions
  | none => options

/-- The options of a node: those of all sources, and what follows from them. -/
def updateOptions (own : Members) (schema : Json) (defaults : Members) : Members :=
  let options := layered schema defaults own
  let options := if Table.has options "titleMap" then options else withTitleMap schema options
  withTypeahead (withStep schema options)

end Schema

end SchemaForm
