/-
Loading the options of a form from a configuration file and the environment.

The built-in values lie below those of the file, and those of the environment
above both.  Tables are merged entry by entry, and a key that is a path reaches
into tables and lists.
-/
import SchemaForm.Json.Parser
import SchemaForm.Settings.Check
import SchemaForm.Settings.Path

namespace SchemaForm

namespace Settings

/-- Why options cannot be loaded. -/
inductive LoadError where
  /-- The file is not readable, or a value does not fit its option. -/
  | unreadable
  /-- A key reaches for an item that its list cannot have. -/
  | misplaced
  /-- The options were read but are faulty. -/
  | faulty (faults : List OptionFault)
deriving Repr

/-- Writes entries whose keys are paths, in order. -/
def layer? (root : Setting) (entries : Table Setting) : Option Setting :=
  entries.foldlM (fun acc (key, value) => Setting.writeAt? value (Setting.stepsOf key) acc) root

/-- The built-in values. -/
def builtIn : Setting :=
  .table [("form", .table [("add_submit", .flag true), ("flat_list", .flag true),
    ("max_items_cap", .int 1000)])]

/-- What the names of environment variables that hold options begin with, in lower case. -/
def variableStart : String := "metis_forms__"

/-- Two underscores for a point. -/
def pointed : List Char → List Char
  | '_' :: '_' :: rest => '.' :: pointed rest
  | c :: rest => c :: pointed rest
  | [] => []

/-- The dotted key of an environment variable that holds an option. -/
def variableKey? (name : String) : Option String :=
  (List.isPrefixOf? variableStart.toList (Text.lower name.toList)).map fun rest =>
    String.ofList (pointed rest)

/-- The options that environment variables hold. -/
def ofEnvironment (environment : Table String) : Table Setting :=
  environment.filterMap fun (name, value) =>
    (variableKey? name).map fun key => (key, Setting.ofEnvironment value)

/-- The entries of a configuration file; a value that is no table has none. -/
def ofFile? (text : String) : Option (Table Setting) :=
  (Json.ofText? text).map fun value => (Setting.ofJson value).entriesOf

/-- What a file and the environment give, the environment over the file. -/
def given? (file environment : Table Setting) : Option Setting := do
  layer? (← layer? (.table []) file) environment

/-- A setting is read as anything that it can stand for. -/
def reader : FormOptions.Reader Setting := ⟨Setting.asFlag?, Setting.asCount?, Setting.asMembers?⟩

/-- Options from a table or from a list. -/
def formOptions? : Setting → Option FormOptions
  | .table entries => reader.ofTable? entries
  | .list parts => reader.ofList? parts
  | _ => none

/-- Loads and checks the options of a form. -/
def load (file : Option String) (environment : Table String) : Except LoadError FormOptions := do
  let some entries := file.elim (some []) ofFile? | throw .unreadable
  let some given := given? entries (ofEnvironment environment) | throw .misplaced
  let root := Setting.writeAll builtIn given.entriesOf
  let some options := formOptions? ((Table.get? root.entriesOf "form").getD (.table []))
    | throw .unreadable
  if options.faults.isEmpty then return options else throw (.faulty options.faults)

end Settings

end SchemaForm
