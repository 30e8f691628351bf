/-
Compiling a form from a schema, a layout description and initial data.

Without a schema one is inferred from the data, and without a description the
whole schema is laid out.
-/
import SchemaForm.Json.Parser
import SchemaForm.Layout.Compose
import SchemaForm.Schema.Inference

namespace SchemaForm

/-- Why a form cannot be compiled. -/
inductive FormError where
  /-- The schema is not an object. -/
  | schemaNotObject (given : Json)
  /-- There is neither a schema nor data. -/
  | noSchema
  /-- The description is not a list. -/
  | layoutNotList (given : Json)
  /-- A text is no JSON. -/
  | unreadable
  /-- The expansion of the schema or the layout does not end. -/
  | endless
deriving Inhabited, Repr

namespace FormError

/-- The kind of a value, with its article. -/
def kindOf : Json → String
  | .null => "null"
  | .bool _ => "a boolean"
  | .num _ => "a number"
  | .str _ => "a string"
  | .arr _ => "an array"
  | .obj _ => "an object"

/-- The text of an error. -/
def message : FormError → String
  | schemaNotObject given => "Invalid schema: expected a JSON object, got " ++ kindOf given
  | noSchema => "Invalid schema: no schema given and no data to infer one from"
  | layoutNotList given => "Invalid layout: expected an array, got " ++ kindOf given
  | unreadable => "The text is not JSON"
  | endless => "The expansion does not end"

end FormError

/-- A compiled form: its layout, and what is needed to expand it later. -/
structure Form where
  layout : List Node
  setup : Setup
  progress : Progress
deriving Inhabited

namespace Form

/-- The schema of a form, given or inferred. -/
def schemaOf (schema data : Option Json) : Except FormError Json :=
  match schema, data with
  | some (.obj members), _ => .ok (.obj members)
  | some other, _ => .error (.schemaNotObject other)
  | none, some data => .ok (Schema.ofData data false)
  | none, none => .error .noSchema

/-- The entries of a description. -/
def entriesOf (layout : Option Json) : Except FormError (List Json) :=
  match layout with
  | none => .ok [.str "*"]
  | some (.arr entries) => .ok entries
  | some other => .error (.layoutNotList other)

/-- What a form of a schema is built from. -/
def setupOf? (options : FormOptions) (widgets : Registry) (schema : Json) (data : Option Json) :
    Option Setup :=
  (Resolved.of? schema).map fun resolved => ⟨resolved, data.getD .null, options, widgets⟩

/-- Builds a form of the given entries, unless that does not end. -/
def build? (setup : Setup) (entries : List Json) : Option Form :=
  ((Compose.layout setup entries).run {}).map fun (layout, progress) =>
    ⟨layout, setup, progress⟩

/-- Compiles a form. -/
def compile (options : FormOptions) (widgets : Registry) (schema layout data : Option Json) :
    Except FormError Form := do
  let schema ← schemaOf schema data
  let entries ← entriesOf layout
  match (setupOf? options widgets schema data).bind (build? · entries) with
  | some form => return form
  | none => throw .endless

/-- Reads a text as JSON. -/
def read (text : String) : Except FormError Json :=
  match Json.ofText? text with
  | some j => .ok j
  | none => .error .unreadable

/-- Compiles a form from texts. -/
def compileText (options : FormOptions) (widgets : Registry) (schema : String)
    (layout data : Option String) : Except FormError Form := do
  let schema ← read schema
  let layout ← layout.mapM read
  let data ← data.mapM read
  compile options widgets (some schema) layout data

/-- The compiled schema. -/
def schema (f : Form) : Json := f.setup.schema

/-- The first node of the layout that is bound to a generic data pointer. -/
def find? (f : Form) (dataPointer : String) : Option Node := Node.findAll? dataPointer f.layout

/-- A copy of a template at a site, and the form with the ids used up. -/
def instantiate (f : Form) (name : String) (site : Site) : Option Node × Form :=
  match f.progress.templates.template? name with
  | some t =>
      let (node, last) := t.place site f.progress.lastId
      (some node, { f with progress := { f.progress with lastId := last } })
  | none => (none, f)

end Form

end SchemaForm
