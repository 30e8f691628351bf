/-
What a layout is built from, and what building it leaves behind.

`Setup` holds what is only read.  `Progress` holds the templates, the data map,
the last id given out and whether any control is required.  `Build` passes the
progress along; it has no result when the building does not end.
-/
import SchemaForm.Layout.Bounds
import SchemaForm.Layout.Template
import SchemaForm.Layout.Widget
import SchemaForm.Reference.Resolved
import SchemaForm.Schema.Options
import SchemaForm.Settings.Options

namespace SchemaForm

/-- What the form knows about one data location. -/
structure DataEntry where
  schemaPointer : Option String := none
  inputType : Option String := none
  disabled : Bool := false
  bounds : Option ArrayBounds := none
  validators : Members := []
deriving Inhabited, Repr

/-- Entries by the shallowest generic data pointer. -/
abbrev DataMap := Table DataEntry

/-- What a layout is built from. -/
structure Setup where
  resolved : Resolved
  initial : Json
  options : FormOptions
  widgets : Registry
deriving Inhabited

/-- What building a layout leaves behind. -/
structure Progress where
  templates : Library := []
  dataMap : DataMap := []
  lastId : Nat := 0
  fieldsRequired : Bool := false
deriving Inhabited

namespace Setup

def schema (s : Setup) : Json := s.resolved.schema

/-- The initial value at a data pointer; a wildcard stands for the first item. -/
def initialValue? (s : Setup) (dataPointer : String) : Option Json :=
  (Pointer.segments? dataPointer).bind fun segments =>
    s.initial.follow? (segments.map fun key => if key = Pointer.wildcard then "0" else key)

/-- The length of the initial list at a data pointer, zero where there is none. -/
def dataLength (s : Setup) (dataPointer : String) : Nat :=
  (((s.initialValue? dataPointer).bind Json.arr?).map List.length).getD 0

/-- The generic form of a data pointer. -/
def generic (s : Setup) (dataPointer : String) : String :=
  Pointer.toGeneric s.resolved.arrays dataPointer

/-- The shallowest equivalent of a data pointer. -/
def dataKey (s : Setup) (dataPointer : String) : String :=
  Pointer.shorten s.resolved.dataFolds s.resolved.arrays dataPointer

/-- The shallowest equivalent of a schema pointer. -/
def schemaKey (s : Setup) (schemaPointer : String) : String :=
  Pointer.shorten s.resolved.schemaFolds s.resolved.arrays schemaPointer

def widget? (s : Setup) (type : String) : Option String := s.widgets.widget? type

/-- The default options with a node's own, as the schema says. -/
def optionsFor (s : Setup) (own : Members) (schema : Json) : Members :=
  Schema.updateOptions own schema s.options.formDefaults

end Setup

namespace DataMap

/-- Changes the entry of a data location, starting from an empty one. -/
def update (m : DataMap) (key : String) (f : DataEntry → DataEntry) : DataMap :=
  Table.modify m key {} f

end DataMap

namespace DataEntry

/-- Records the bounds of an array unless there are some already. -/
def withBounds (b : ArrayBounds) (e : DataEntry) : DataEntry :=
  { e with bounds := e.bounds.or (some b) }

end DataEntry

/-- A computation that builds part of a layout. -/
abbrev Build := StateT Progress Option

namespace Build

/-- Gives out the next id. -/
def newId : Build Nat := do
  let p ← get
  set { p with lastId := p.lastId + 1 }
  return p.lastId + 1

/-- Changes the entry of a data location. -/
def note (key : String) (f : DataEntry → DataEntry) : Build Unit :=
  modify fun p => { p with dataMap := p.dataMap.update key f }

/-- Records that some control is required. -/
def noteRequired : Build Unit := modify fun p => { p with fieldsRequired := true }

/-- Changes the template library. -/
def onTemplates (f : Library → Library) : Build Unit :=
  modify fun p => { p with templates := f p.templates }

/-- A copy of a template at a site. -/
def placed (t : Template) (site : Site) : Build Node := do
  let p ← get
  let (node, last) := t.place site p.lastId
  set { p with lastId := last }
  return node

/-- A copy of the stored template of a name, if there is one. -/
def instantiate (name : String) (site : Site) : Build (Option Node) := do
  match (← get).templates.template? name with
  | some t => some <$> placed t site
  | none => return none

/-- So many copies of a template at one site. -/
def copies (t : Template) (site : Site) : Nat → Build (List Node)
  | 0 => return []
  | n + 1 => do
      let node ← placed t site
      return node :: (← copies t site n)

end Build

end SchemaForm
