/-
What a form's options must satisfy.
-/
import SchemaForm.Schema.Keyword
import SchemaForm.Settings.Options
import SchemaForm.Text.Blank

namespace SchemaForm

/-- What is wrong with the options of a form. -/
inductive OptionFault where
  | zeroCap
  | blankName
  | structuralName (name : String)
deriving DecidableEq, Repr

namespace OptionFault

/-- The text of a fault. -/
def message : OptionFault → String
  | zeroCap => "Invalid value for form.max_items_cap: Cap must be greater than 0"
  | blankName => "Missing required field: form.form_defaults option name"
  | structuralName name =>
      "Invalid value for form.form_defaults." ++ name
        ++ ": Structural schema keywords cannot be option defaults"

/-- What is wrong with the name of a default option. -/
def ofName? (name : String) : Option OptionFault :=
  if Text.isAllBlank name then some blankName
  else if Schema.structuralKeywords.contains name then some (structuralName name)
  else none

end OptionFault

namespace FormOptions

/-- Everything that is wrong with options, the cap first and then the names of
default options in order. -/
def faults (o : FormOptions) : List OptionFault :=
  (if o.maxItemsCap = 0 then [.zeroCap] else [])
    ++ (Table.names o.formDefaults).filterMap OptionFault.ofName?

end FormOptions

end SchemaForm
