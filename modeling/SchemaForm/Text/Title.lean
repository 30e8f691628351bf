/-
Labels made from field names, and labels for "add" controls.
-/
import SchemaForm.Text.Blank
import SchemaForm.Text.LetterCase

namespace SchemaForm

namespace Text

/-- Puts a blank before an upper-case letter that follows a lower-case one, and
for every underscore; `afterLower` tells whether the last character was lower case. -/
def spaced (afterLower : Bool) : List Char → List Char
  | [] => []
  | c :: rest =>
      if c = '_' then ' ' :: spaced false rest
      else if isUpper c && afterLower then ' ' :: c :: spaced (isLower c) rest
      else c :: spaced (isLower c) rest

/-- The word with its first character in upper case. -/
def capitalized : List Char → List Char
  | [] => []
  | c :: rest => toUpper c ++ rest

/-- The label of a field name: `firstName` and `first_name` give `First Name`. -/
def title (name : String) : String :=
  String.ofList (List.intercalate [' '] ((words (spaced false name.toList)).map capitalized))

/-- Whether a key is a list position rather than a field name. -/
def isIndex (key : String) : Bool :=
  !key.toList.isEmpty && key.toList.all Char.isDigit

/-- Whether a label already begins with the word "add", in any case of letters. -/
def startsWithAdd (label : String) : Bool :=
  let word := lower label.toList
  word == ['a', 'd', 'd'] || List.isPrefixOf ['a', 'd', 'd', ' '] word

/-- The label of the control that adds an item: from a title, else from a field
name, else from the title of the surrounding schema, else from a pointer segment. -/
def addLabel (label name parentTitle segment : Option String) : String :=
  let own := (label.filter (· ≠ "")).or ((name.filter (!isIndex ·)).map title)
  match own, parentTitle, segment.filter (!isIndex ·) with
  | some own, _, _ => if startsWithAdd own then own else "Add " ++ own
  | none, some parent, _ => "Add to " ++ parent
  | none, none, some key => "Add to " ++ title key
  | none, none, none => "Add"

end Text

end SchemaForm
