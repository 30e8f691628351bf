/-
A schema inferred from a value.

Numbers become `number`, null becomes `string`, and an array whose items share
one type gets one item schema, into which the schemas of all items are written
one after the other.
-/
import SchemaForm.Json.Basic

namespace SchemaForm

namespace Schema

/-- The name of the draft that inferred schemas declare. -/
def draft : String := "http://json-schema.org/draft-06/schema#"

/-- The inferred type of a value. -/
def inferredType : Json → String
  | .null => "string"
  | .str _ => "string"
  | .bool _ => "boolean"
  | .num _ => "number"
  | .arr _ => "array"
  | .obj _ => "object"

/-- Whether there are values and all have one inferred type. -/
def uniform : List Json → Bool
  | [] => false
  | x :: xs => xs.all fun y => inferredType y == inferredType x

/-- Writes the members of every schema, in turn, into one. -/
def overlay (schemas : List Json) : Members :=
  schemas.foldl (fun acc schema => Table.insertAll acc (schema.obj?.getD [])) []

mutual

/-- The schema of a value.  With `demand`, every property is required and every
array needs an item. -/
def inferFrom (demand : Bool) : Json → Json
  | .obj members =>
      .obj <| [("type", .str "object"), ("properties", .obj (inferMembers demand members))]
        ++ if demand then [("required", Json.strs (Table.names members))] else []
  | .arr items =>
      let schemas := inferItems demand items
      .obj <| [("type", .str "array"),
          ("items", if uniform items then .obj (overlay schemas) else .arr schemas)]
        ++ if demand then [("minItems", Json.nat 1)] else []
  | .null => .obj [("type", .str "string")]
  | .str _ => .obj [("type", .str "string")]
  | .bool _ => .obj [("type", .str "boolean")]
  | .num _ => .obj [("type", .str "number")]

def inferItems (demand : Bool) : List Json → List Json
  | [] => []
  | x :: xs => inferFrom demand x :: inferItems demand xs

def inferMembers (demand : Bool) : List (String × Json) → List (String × Json)
  | [] => []
  | (key, value) :: rest => (key, inferFrom demand value) :: inferMembers demand rest

end

/-- The schema document inferred from a value. -/
def ofData (value : Json) (demand : Bool) : Json :=
  match inferFrom demand value with
  | .obj members => .obj (("$schema", .str draft) :: members)
  | other => other

end Schema

end SchemaForm
