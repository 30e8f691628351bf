/-
Widgets: what shows a control on the screen, known here by name only.
-/
import SchemaForm.Table

namespace SchemaForm

/-- The name of the widget of each control type. -/
abbrev Registry := Table String

namespace Registry

/-- The control types that every renderer is expected to show. -/
def standardTypes : List String := [
  "none", "$ref", "root", "section", "fieldset", "advancedfieldset", "authfieldset",
  "optionfieldset", "selectfieldset", "conditional", "actions", "flex", "tab", "tabs",
  "tabarray", "array", "wizard", "help", "message", "html", "template", "submit", "button",
  "reset", "text", "email", "password", "search", "tel", "url", "color", "number", "integer",
  "range", "updown", "date", "datetime", "datetime-local", "time", "month", "week", "alt-date",
  "alt-datetime", "file", "image", "hidden", "textarea", "select", "radio", "radios",
  "radios-inline", "radiobuttons", "checkbox", "checkboxes", "checkboxes-inline",
  "checkboxbuttons", "tagsinput", "one-of"]

/-- Each standard type with the widget of its own name. -/
def standard : Registry := standardTypes.map fun type => (type, type)

/-- The widget of a control type, or the one called `none` for an unknown type. -/
def widget? (r : Registry) (type : String) : Option String :=
  (Table.get? r type).or (Table.get? r "none")

end Registry

end SchemaForm
