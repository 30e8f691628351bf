/-
Dotted paths: `user.address[0].city`, `tags[]`, `map['a key']`.

Names are separated by points, and brackets hold a position, nothing at all or a
text in quotes.  Empty brackets give an empty segment, which stands for any
position.
-/
import SchemaForm.Pointer.Basic
import SchemaForm.Text.Blank

namespace SchemaForm

namespace Pointer

/-- The text between a pair of the given quote, if it stands between one. -/
def quoted? (quote : Char) : List Char → Option (List Char)
  | [] => none
  | c :: rest =>
      if c = quote ∧ rest.getLast? = some quote then some rest.dropLast else none

/-- What brackets hold: blanks around it and a pair of quotes left out. -/
def bracketed (inner : List Char) : String :=
  let inner := Text.trim inner
  String.ofList (((quoted? '\'' inner).or (quoted? '"' inner)).getD inner)

/-- The name read so far as a list of segments. -/
def named (name : List Char) : List String :=
  if name.isEmpty then [] else [String.ofList name.reverse]

mutual

/-- Reads outside brackets; `name` holds the characters of a name, last first. -/
def pathFrom (name : List Char) : List Char → List String
  | [] => named name
  | c :: rest =>
      if c = '.' then named name ++ pathFrom [] rest
      else if c = '[' then named name ++ bracketFrom [] rest
      else pathFrom (c :: name) rest

/-- Reads inside brackets, which the end of the text closes too. -/
def bracketFrom (inner : List Char) : List Char → List String
  | [] => [bracketed inner.reverse]
  | c :: rest =>
      if c = ']' then bracketed inner.reverse :: pathFrom [] rest
      else bracketFrom (c :: inner) rest

end

/-- The segments of a dotted path or of a pointer. -/
def ofPath (path : String) : List String :=
  match segments? path with
  | some segments => segments
  | none => pathFrom [] path.toList

/-- The generic pointer that a dotted path stands for. -/
def genericOfPath (path : String) : String := ofSegmentsOr wildcard (ofPath path)

end Pointer

end SchemaForm
