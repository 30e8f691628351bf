/-
The compact text of a value.

Nothing stands between tokens, and only the quote, the backslash and the control
characters are escaped.
-/
import SchemaForm.Number.Notation
import SchemaForm.Json.Basic

namespace SchemaForm

namespace Json

/-- The lower-case hexadecimal digit of a number below sixteen. -/
def hexDigit (n : Nat) : Char :=
  if n < 10 then Char.ofNat ('0'.toNat + n) else Char.ofNat ('a'.toNat + (n - 10))

/-- One character inside quotes. -/
def escapeChar (c : Char) : String :=
  if c = '"' then "\\\""
  else if c = '\\' then "\\\\"
  else if c = '\n' then "\\n"
  else if c = '\r' then "\\r"
  else if c = '\t' then "\\t"
  else if c = '\x08' then "\\b"
  else if c = '\x0c' then "\\f"
  else if c.toNat < 0x20 then
    String.ofList ['\\', 'u', '0', '0', hexDigit (c.toNat / 16), hexDigit (c.toNat % 16)]
  else String.singleton c

/-- A text between quotes. -/
def quote (s : String) : String :=
  s.foldl (fun acc c => acc ++ escapeChar c) "\"" ++ "\""

mutual

/-- Appends the text of a value. -/
def write (acc : String) : Json → String
  | .null => acc ++ "null"
  | .bool true => acc ++ "true"
  | .bool false => acc ++ "false"
  | .num n => acc ++ String.ofList n.chars
  | .str s => acc ++ quote s
  | .arr [] => acc ++ "[]"
  | .arr (x :: xs) => writeItems (write (acc ++ "[") x) xs ++ "]"
  | .obj [] => acc ++ "\x7b\x7d"
  | .obj ((key, value) :: rest) =>
      writeMembers (write (acc ++ "\x7b" ++ quote key ++ ":") value) rest ++ "\x7d"

/-- Appends items, each after a comma. -/
def writeItems (acc : String) : List Json → String
  | [] => acc
  | x :: xs => writeItems (write (acc ++ ",") x) xs

/-- Appends members, each after a comma. -/
def writeMembers (acc : String) : List (String × Json) → String
  | [] => acc
  | (key, value) :: rest => writeMembers (write (acc ++ "," ++ quote key ++ ":") value) rest

end

/-- The text of a value, members in their own order. -/
def render (j : Json) : String := write "" j

mutual

/-- The value with the members of every object sorted by name. -/
def sorted : Json → Json
  | .arr items => .arr (sortedItems items)
  | .obj members => .obj ((sortedMembers members).mergeSort fun a b => !(b.1 < a.1))
  | .null => .null
  | .bool b => .bool b
  | .num n => .num n
  | .str s => .str s

def sortedItems : List Json → List Json
  | [] => []
  | x :: xs => sorted x :: sortedItems xs

def sortedMembers : List (String × Json) → List (String × Json)
  | [] => []
  | (key, value) :: rest => (key, sorted value) :: sortedMembers rest

end

end Json

end SchemaForm
