/-
Building the entries of a selection control.

The entries come from a title map in one of several shapes, from a list of
allowed values, or, where there is neither, from the two truth values.  Groups
are either flattened into `group: name` labels or gathered into buckets of
neighbours, and a field that may be left out gets an entry that clears it.
-/
import SchemaForm.Json.Printer
import SchemaForm.TitleMap.Basic

namespace SchemaForm

namespace TitleMap

/-- The label of the entry that clears a selection. -/
def noneLabel : String := "<none>"

/-- A value as a label or key: strings as they are, anything else as its text. -/
def label : Json → String
  | .str s => s
  | other => other.render

/-- Where the entries come from. -/
inductive Source where
  /-- Entries, kept only where their value is allowed if there is a list of such. -/
  | entries (entries : List Entry) (allowed : Option (List Json))
  /-- Labels in step with values. -/
  | parallel (names : List String) (values : List Json)
  /-- Labels by value, in the order of the values if there are any. -/
  | keyed (labels : Members) (order : Option (List Json))
  /-- Values that are their own labels. -/
  | values (values : List Json)
  /-- True and false. -/
  | truth

/-- Tells the source from a title map and a list of allowed values. -/
def Source.of (titleMap : Option Json) (allowed : Option (List Json)) : Source :=
  match titleMap, allowed with
  | some (.arr items), listed =>
      match listed, !items.isEmpty && items.all Json.isStr with
      | some vs, true => .parallel (items.filterMap Json.str?) vs
      | _, _ => .entries (items.filterMap Entry.ofJson?) listed
  | some (.obj labels), order => .keyed labels order
  | _, some vs => .values vs
  | _, none => .truth

/-- A plain option as an entry. -/
def option (name : String) (value : Json) : Entry := .choice (.plain name value)

/-- An option whose value is allowed, without its group. -/
def allowedOption? (allowed : List Json) : Entry → Option Entry
  | .choice c => if allowed.contains c.value then some (option c.name c.value) else none
  | .bucket _ _ => none

/-- The entries of a source. -/
def Source.toEntries : Source → List Entry
  | .entries es none => es
  | .entries es (some allowed) => es.filterMap (allowedOption? allowed)
  | .parallel names vs => List.zipWith option names vs
  | .keyed labels (some order) =>
      order.filterMap fun value =>
        (Table.get? labels (label value)).map fun name => option (label name) value
  | .keyed labels none => labels.map fun (key, name) => option (label name) (.str key)
  | .values vs => vs.map fun value => option (label value) value
  | .truth => [option "True" (.bool true), option "False" (.bool false)]

/-- The label of an option within a group. -/
def groupedName (group name : String) : String := group ++ ": " ++ name

/-- An entry as options without groups. -/
def flattenEntry : Entry → List Entry
  | .bucket group choices => choices.map fun c => option (groupedName group c.name) c.value
  | .choice ⟨name, value, some group⟩ => [option (groupedName group name) value]
  | .choice c => [.choice c]

/-- All entries as options without groups. -/
def flatten (entries : List Entry) : List Entry := entries.flatMap flattenEntry

/-- The group of an entry with the options it brings. -/
def groupOf : Entry → Option (String × List Choice)
  | .bucket group choices => some (group, choices)
  | .choice ⟨name, value, some group⟩ => some (group, [.plain name value])
  | .choice _ => none

/-- Adds an entry after others: to the last bucket where that has the same group. -/
def gather (entries : List Entry) (entry : Entry) : List Entry :=
  match groupOf entry with
  | none => entries ++ [entry]
  | some (group, choices) =>
      match entries.getLast? with
      | some (.bucket last bucket) =>
          if last = group then entries.dropLast ++ [.bucket last (bucket ++ choices)]
          else entries ++ [.bucket group choices]
      | _ => entries ++ [.bucket group choices]

/-- Collects neighbours of one group into buckets. -/
def collect (entries : List Entry) : List Entry := entries.foldl gather []

/-- The entries with their groups flattened or collected. -/
def arrange (flat : Bool) (entries : List Entry) : List Entry :=
  if entries.any Entry.isGrouped then
    if flat then flatten entries else collect entries
  else entries

/-- The entries of a selection control. -/
def build (titleMap : Option Json) (allowed : Option (List Json)) (required flat : Bool) :
    List Entry :=
  let entries := arrange flat (Source.of titleMap allowed).toEntries
  if required || entries.any Entry.hasEmpty then entries
  else option noneLabel .null :: entries

end TitleMap

end SchemaForm
