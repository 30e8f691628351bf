/-
The options that hold for a whole form.
-/
import SchemaForm.Json.Basic

namespace SchemaForm

/-- Options of a form. -/
structure FormOptions where
  /-- Whether a form without a submit control gets one. -/
  addSubmit : Bool := true
  /-- Whether grouped title maps are flattened where a control does not say. -/
  flatList : Bool := true
  /-- The upper limit of arrays that have none. -/
  maxItemsCap : Nat := 1000
  /-- The weakest options of every control. -/
  formDefaults : Members := []
deriving Inhabited, Repr

namespace FormOptions

def toJson (o : FormOptions) : Json :=
  .obj [
    ("add_submit", .bool o.addSubmit),
    ("flat_list", .bool o.flatList),
    ("max_items_cap", Json.nat o.maxItemsCap),
    ("form_defaults", .obj o.formDefaults)]

/-- How a form of values is read as what each option needs. -/
structure Reader (α : Type) where
  flag? : α → Option Bool
  count? : α → Option Nat
  members? : α → Option Members

namespace Reader

variable {α : Type}

/-- A part that has to be readable where it is given. -/
def part? {β : Type} (read : α → Option β) (default : β) : Option α → Option β
  | none => some default
  | some value => read value

/-- Options from their four parts. -/
def ofParts? (r : Reader α) (addSubmit flatList cap defaults : Option α) : Option FormOptions := do
  return {
    addSubmit := ← part? r.flag? true addSubmit
    flatList := ← part? r.flag? true flatList
    maxItemsCap := ← part? r.count? 1000 cap
    formDefaults := ← part? r.members? [] defaults }

/-- Options from a table by the names of the parts; other entries do not matter. -/
def ofTable? (r : Reader α) (entries : Table α) : Option FormOptions :=
  r.ofParts? (Table.get? entries "add_submit") (Table.get? entries "flat_list")
    (Table.get? entries "max_items_cap") (Table.get? entries "form_defaults")

/-- Options from the list of their parts in order. -/
def ofList? (r : Reader α) (parts : List α) : Option FormOptions :=
  r.ofParts? parts[0]? parts[1]? parts[2]? parts[3]?

end Reader

/-- A value of JSON is read as it is. -/
def jsonReader : Reader Json := ⟨Json.bool?, Json.word?, Json.obj?⟩

/-- Reads options from an object, or from a list of at most four parts. -/
def ofJson? : Json → Option FormOptions
  | .obj members => jsonReader.ofTable? members
  | .arr parts => if parts.length ≤ 4 then jsonReader.ofList? parts else none
  | _ => none

end FormOptions

end SchemaForm
