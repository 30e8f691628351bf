/-
Putting schemas together.

`combine` makes one schema that enforces two, keyword by keyword; where two
values of a keyword cannot be reduced to one, both schemas stay side by side in
an `allOf` list.  `merge` first merges maps of sub-schemas and item schemas entry
by entry, and `collapseAllOf` merges the members of an `allOf` list into the
schema around it.
-/
import SchemaForm.Json.Basic
import SchemaForm.Schema.Multiple
import SchemaForm.Schema.TypeName

namespace SchemaForm

namespace Schema

/-- The limits of which the smaller one is the tighter. -/
def maxKeywords : List String :=
  ["maximum", "exclusiveMaximum", "maxLength", "maxItems", "maxProperties"]

/-- The limits of which the larger one is the tighter. -/
def minKeywords : List String :=
  ["minimum", "exclusiveMinimum", "minLength", "minItems", "minProperties"]

/-- The keywords whose lists are intersected and whose objects are combined. -/
def alternativeKeywords : List String := ["enum", "anyOf", "oneOf", "additionalProperties"]

/-- The keywords whose lists are united. -/
def demandKeywords : List String := ["allOf", "required"]

/-- Whether a value counts as true. -/
def isTruthy : Json → Bool
  | .null => false
  | .bool b => b
  | .num n => !(n.toReal?.any Binary64.isZero)
  | .str s => s != ""
  | _ => true

/-- The type names of a `type` value. -/
def typeList? : Json → Option (List Json)
  | .str name => some [.str name]
  | .arr names => some names
  | _ => none

/-- The common types.  A single one is a plain name again when either side was. -/
def intersectTypes? (a b : Json) : Option Json := do
  let names ← typeList? a
  let others ← typeList? b
  match names.filter others.contains with
  | [name] => return if a.isStr || b.isStr then name else .arr [name]
  | common => return .arr common

/-- The members of the first list that the second one holds too. -/
def intersection (xs ys : List Json) : List Json := xs.filter ys.contains

/-- The first list, and the members of the second one that it does not hold. -/
def union (xs ys : List Json) : List Json := xs ++ ys.filter (!xs.contains ·)

/-- The tighter of two limits, the first one where they are equal. -/
def tighter? (replaces : Binary64 → Binary64 → Bool) (a b : Json) : Option Json := do
  let x ← a.real?
  let y ← b.real?
  return if replaces y x then b else a

/-- The combined value of a keyword that holds no sub-schemas, or nothing where
its two values cannot be reduced to one. -/
def combineLimit? (key : String) (a b : Json) : Option Json :=
  if key = "type" then intersectTypes? a b
  else if demandKeywords.contains key then
    match a, b with
    | .arr xs, .arr ys => some (.arr (union xs ys))
    | _, _ => none
  else if key = "multipleOf" then
    match a.real?, b.real? with
    | some x, some y => some (.num (Number.ofReal (Binary64.lcm x y)))
    | _, _ => none
  else if key = "uniqueItems" then some (.bool (isTruthy a || isTruthy b))
  else if maxKeywords.contains key then tighter? Binary64.less a b
  else if minKeywords.contains key then tighter? (fun y x => x.less y) a b
  else none

/-- Both schemas, side by side. -/
def sideBySide (a b : Json) : Json := .obj [("allOf", .arr [a, b])]

mutual

/-- One schema that enforces both.  An empty one adds nothing. -/
def combine (a b : Json) : Json :=
  if a.isEmpty then b
  else if b.isEmpty then a
  else
    match a, b with
    | .obj first, .obj second =>
        match combineMembers first first second with
        | some members => .obj members
        | none => sideBySide (.obj first) (.obj second)
    | a, b => sideBySide a b
termination_by (a.size + b.size, 0)
decreasing_by simp only [Json.size]; omega

/-- Writes the members of the second schema into `acc`, each combined with the
first schema's member of that name. -/
def combineMembers (first acc : Members) : List (String × Json) → Option Members
  | [] => some acc
  | (key, value) :: rest =>
      match _h : Table.get? first key with
      | none => combineMembers first (Table.insert acc key value) rest
      | some old =>
          if old == value then combineMembers first acc rest
          else
            match combineKeyword key old value with
            | some both => combineMembers first (Table.insert acc key both) rest
            | none => none
termination_by second => (Json.sizeMembers first + Json.sizeMembers second, 2)
decreasing_by
  all_goals simp only [Json.sizeMembers]
  all_goals have := Json.size_pos value
  all_goals try replace _h := Json.size_le_of_get? _h
  all_goals omega

/-- The combined value of a keyword. -/
def combineKeyword (key : String) (a b : Json) : Option Json :=
  if alternativeKeywords.contains key then
    match a, b with
    | .arr xs, .arr ys => some (.arr (intersection xs ys))
    | .obj first, .obj second => some (combine (.obj first) (.obj second))
    | .arr xs, .obj second => some (.arr (combineEach (.obj second) xs))
    | .obj first, .arr ys => some (.arr (combineEach (.obj first) ys))
    | _, _ => none
  else combineLimit? key a b
termination_by (a.size + b.size, 1)
decreasing_by
  all_goals simp only [Json.size]
  all_goals omega

/-- Combines every schema of a list with one other schema. -/
def combineEach (other : Json) : List Json → List Json
  | [] => []
  | x :: xs => combine x other :: combineEach other xs
termination_by xs => (Json.sizeItems xs + other.size, 1)
decreasing_by
  all_goals simp only [Json.sizeItems]
  all_goals have := Json.size_pos x
  all_goals omega

end

/-- The keywords whose maps of sub-schemas are merged name by name. -/
def mergedMaps : List String := ["properties", "patternProperties", "definitions"]

/-- Writes a merged value into the first schema and takes it out of the second. -/
def settle (key : String) (value : Option Json) (sides : Members × Members) : Members × Members :=
  match value with
  | some value => (Table.insert sides.1 key value, Table.swapErase sides.2 key)
  | none => sides

mutual

/-- Merges two schemas: sub-schemas that both have are merged in turn, and the
remaining keywords are combined. -/
def merge (a b : Json) : Json :=
  match a, b with
  | .obj first, .obj second =>
      let sides :=
        settle "items" (mergeItems? first second) <|
        settle "definitions" (mergeMap? "definitions" first second) <|
        settle "patternProperties" (mergeMap? "patternProperties" first second) <|
        settle "properties" (mergeMap? "properties" first second) (first, second)
      combine (.obj sides.1) (.obj sides.2)
  | a, b => combine a b
termination_by (b.size, 0)
decreasing_by
  all_goals simp only [Json.size]
  all_goals omega

/-- The merged map of a keyword that is an object in both schemas. -/
def mergeMap? (key : String) (first second : Members) : Option Json :=
  match Table.get? first key, _h : Table.get? second key with
  | some (.obj left), some (.obj right) => some (.obj (mergeEntries left left right))
  | _, _ => none
termination_by (Json.sizeMembers second, 2)
decreasing_by
  have := Json.size_le_of_get? _h
  simp only [Json.size] at this
  omega

/-- Writes the entries of the second map into `acc`, each merged with the first
map's entry of that name. -/
def mergeEntries (left acc : Members) : List (String × Json) → Members
  | [] => acc
  | (name, value) :: rest =>
      let merged :=
        match Table.get? left name with
        | some old => merge old value
        | none => value
      mergeEntries left (Table.insert acc name merged) rest
termination_by right => (Json.sizeMembers right, 1)
decreasing_by
  all_goals simp only [Json.sizeMembers]
  all_goals have := Json.size_pos value
  all_goals omega

/-- The merged item schemas, where both are objects. -/
def mergeItems? (first second : Members) : Option Json :=
  match Table.get? first "items", _h : Table.get? second "items" with
  | some (.obj left), some (.obj right) => some (merge (.obj left) (.obj right))
  | _, _ => none
termination_by (Json.sizeMembers second, 1)
decreasing_by
  have := Json.size_le_of_get? _h
  omega

end

/-- Merges any number of schemas, from the left. -/
def mergeAll (schemas : List Json) : Json := schemas.foldl merge (.obj [])

/-- Merges the members of an `allOf` list, and then the keywords beside it. -/
def collapseAllOf (schema : Json) : Json :=
  match schema.get? "allOf", schema with
  | some (.arr parts), .obj members =>
      let merged := mergeAll parts
      if members.length > 1 then mergeAll [merged, .obj (Table.swapErase members "allOf")]
      else merged
  | _, _ => schema

/-- Whether an item schema has the property of a required name. -/
def declares (items : Json) (name : Json) : Bool :=
  match name.str? with
  | some key => ((items.get? "properties").bind (·.get? key)).isSome
  | none => false

/-- Moves the list of required names of an array schema into the item schema that
declares the properties, unless that one has a list of its own. -/
def moveRequired (schema : Json) : Json :=
  match schema, (schema.get? "required").bind Json.arr? with
  | .obj members, some names =>
      let holder := ["items", "additionalItems"].find? fun key =>
        ((schema.get? key).bind (·.get? "properties")).isSome
      match isTyped schema "array", holder.bind fun key => (schema.get? key).map (key, ·) with
      | true, some (key, .obj items) =>
          let fits :=
            !(Table.has items "required") &&
              (Table.has items "additionalProperties" || names.all (declares (.obj items)))
          if fits then
            .obj (Table.insert (Table.swapErase members "required") key
              (.obj (Table.insert items "required" (.arr names))))
          else schema
      | _, _ => schema
  | _, _ => schema

end Schema

end SchemaForm
