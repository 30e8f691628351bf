/-
From data pointers to schemas and back.

`locate?` walks a data pointer into a schema and collects the schema pointer on
the way.  A place that the schema leaves open is described by the empty schema,
and so is everything below it.  `toDataPointer?` goes the other way and leaves
the structural keywords out.
-/
import SchemaForm.Pointer.Access
import SchemaForm.Pointer.Generic
import SchemaForm.Schema.TypeName

namespace SchemaForm

namespace Schema

/-- What describes a data location: a schema of the document at the end of a
path, or, where an additional item or property is left open, nothing at all. -/
inductive Found where
  | declared (path : List String) (schema : Json)
  | free (path : List String)
deriving Repr

namespace Found

/-- The segments of the schema pointer. -/
def path : Found → List String
  | declared path _ => path
  | free path => path

/-- The schema, the empty one at an open place. -/
def schema : Found → Json
  | declared _ schema => schema
  | free _ => .obj []

/-- The same place with more segments in front. -/
def under (above : List String) : Found → Found
  | declared path schema => declared (above ++ path) schema
  | free path => free (above ++ path)

end Found

/-- What an additional keyword says about values that no other keyword describes. -/
def additional? (schema : Json) (keyword : String) : Option Found :=
  match schema.get? keyword with
  | some (.obj members) => some (.declared [keyword] (.obj members))
  | some (.bool false) => none
  | _ => some (.free [keyword])

/-- The item schema of a list position. -/
def itemAt? (schema : Json) (key : String) : Option Found :=
  let declared : Option Found :=
    match schema.get? "items" with
    | some (.obj members) => some (.declared ["items"] (.obj members))
    | some (.arr tuple) =>
        (Pointer.index? key).bind fun i =>
          tuple[i]?.map fun item => Found.declared ["items", key] item
    | _ => none
  declared.or (additional? schema "additionalItems")

/-- The schema of a property. -/
def propertyAt? (schema : Json) (key : String) : Option Found :=
  match (schema.get? "properties").bind (·.get? key) with
  | some property => some (.declared ["properties", key] property)
  | none => additional? schema "additionalProperties"

/-- One step of a data pointer. -/
def stepInto? (schema : Json) (key : String) : Option Found :=
  let isArray := isTyped schema "array" || schema.has "items"
  let isObject := isTyped schema "object" || schema.has "properties"
  if isArray && ((Pointer.index? key).isSome || key == Pointer.wildcard) then itemAt? schema key
  else if isObject then propertyAt? schema key
  else none

/-- Walks the segments of a data pointer into a schema. -/
def locateFrom? (schema : Json) : List String → Option Found
  | [] => some (.declared [] schema)
  | key :: rest =>
      match stepInto? schema key with
      | some (.declared path next) => (locateFrom? next rest).map (·.under path)
      | some (.free path) => some (.free path)
      | none => none

/-- The place in the schema that describes a data location. -/
def locate? (schema : Json) (dataPointer : String) : Option Found :=
  (Pointer.segments? dataPointer).bind (locateFrom? schema)

/-- The schema of the value at a data pointer. -/
def atData? (schema : Json) (dataPointer : String) : Option Json :=
  (locate? schema dataPointer).map Found.schema

/-- The schema of the object or array that holds the value at a data pointer. -/
def aboveData? (schema : Json) (dataPointer : String) : Option Json :=
  match Pointer.segments? dataPointer with
  | some (key :: rest) => (locateFrom? schema (key :: rest).dropLast).map Found.schema
  | _ => none

/-- The schema pointer of a data pointer. -/
def pointerOfData? (schema : Json) (dataPointer : String) : Option String :=
  (locate? schema dataPointer).map fun found => Pointer.ofSegments found.path

/-- The data segments of a schema path: names of properties, positions in
tuples, `-` for items of lists.  Nothing where the path leaves the data. -/
def dataSegments? (schema : Json) : List String → Option (List String)
  | [] => some []
  | "properties" :: key :: rest =>
      ((schema.get? "properties").bind (·.get? key)).bind fun next =>
        (dataSegments? next rest).map (key :: ·)
  | "items" :: rest =>
      match schema.get? "items", rest with
      | some (.arr tuple), key :: rest =>
          (Pointer.index? key).bind fun i =>
            tuple[i]?.bind fun next => (dataSegments? next rest).map (Nat.repr i :: ·)
      | some (.arr _), [] => none
      | some next, rest => (dataSegments? next rest).map (Pointer.wildcard :: ·)
      | none, _ => none
  | "additionalItems" :: rest =>
      (schema.get? "additionalItems").bind fun next =>
        (dataSegments? next rest).map (Pointer.wildcard :: ·)
  | _ => none

/-- The generic data pointer that a schema pointer describes. -/
def toDataPointer? (schema : Json) (schemaPointer : String) : Option String :=
  (Pointer.segments? schemaPointer).bind fun segments =>
    (dataSegments? schema segments).map Pointer.ofSegments

/-- The keywords between a schema and the schemas of what it holds. -/
def containerKeywords : List String :=
  ["properties", "additionalProperties", "patternProperties", "items", "additionalItems"]

/-- Whether a list of required names holds a name, or, without such a list,
whether an array needs an item at that position. -/
def requires (holder : Json) (key : String) : Bool :=
  match (holder.get? "required").bind Json.arr? with
  | some names => names.any (·.str? == some key)
  | none =>
      isTyped holder "array" &&
        (match (holder.get? "minItems").bind Json.word?, Pointer.index? key with
          | some least, some index => index < least
          | _, _ => false)

/-- Whether the schema that holds the place of a schema pointer requires it. -/
def isRequired (schema : Json) (schemaPointer : String) : Bool :=
  schema.isObj &&
    (match Pointer.segments? schemaPointer with
      | none => false
      | some segments =>
          match segments.getLast? with
          | none => (schema.get? "required") == some (.bool true)
          | some key =>
              let above := segments.dropLast
              let above :=
                if above.getLast?.any containerKeywords.contains then above.dropLast else above
              match schema.follow? above with
              | some holder => requires holder key
              | none => false)

end Schema

end SchemaForm
