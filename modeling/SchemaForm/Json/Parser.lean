/-
Reading the text of a value.

The grammar is the strict one: no comments, no trailing commas, control
characters and lone surrogates refused.  Values nest at most one hundred and
twenty-seven deep.  A repeated member keeps its first place and its last value.
-/
import SchemaForm.Number.Reader
import SchemaForm.Json.Basic

namespace SchemaForm

namespace Json

/-- The characters allowed between tokens. -/
def isSpace (c : Char) : Bool := c == ' ' || c == '\n' || c == '\t' || c == '\r'

def skipSpace : List Char → List Char
  | [] => []
  | c :: rest => if isSpace c then skipSpace rest else c :: rest

/-- The value of a hexadecimal digit. -/
def hex? (c : Char) : Option Nat :=
  if '0' ≤ c ∧ c ≤ '9' then some (c.toNat - '0'.toNat)
  else if 'a' ≤ c ∧ c ≤ 'f' then some (c.toNat - 'a'.toNat + 10)
  else if 'A' ≤ c ∧ c ≤ 'F' then some (c.toNat - 'A'.toNat + 10)
  else none

def hex4? (a b c d : Char) : Option Nat := do
  return (((← hex? a) * 16 + (← hex? b)) * 16 + (← hex? c)) * 16 + (← hex? d)

/-- The character that a short escape stands for. -/
def shortEscape? (c : Char) : Option Char :=
  if c = '"' ∨ c = '\\' ∨ c = '/' then some c
  else if c = 'b' then some '\x08'
  else if c = 'f' then some '\x0c'
  else if c = 'n' then some '\n'
  else if c = 'r' then some '\r'
  else if c = 't' then some '\t'
  else none

/-- The character of a code unit that is not half of a pair. -/
def plainUnit? (u : Nat) : Option Char :=
  if 0xd800 ≤ u ∧ u < 0xe000 then none else some (Char.ofNat u)

/-- The character of a high and a low half. -/
def pair? (high low : Nat) : Option Char :=
  if 0xd800 ≤ high ∧ high < 0xdc00 ∧ 0xdc00 ≤ low ∧ low < 0xe000 then
    some (Char.ofNat (0x10000 + (high - 0xd800) * 0x400 + (low - 0xdc00)))
  else none

/-- Reads the rest of a string, the opening quote already taken; `acc` holds the
characters read so far, last first. -/
def readString (acc : List Char) : List Char → Option (String × List Char)
  | [] => none
  | '"' :: rest => some (String.ofList acc.reverse, rest)
  | '\\' :: 'u' :: a :: b :: c :: d :: rest =>
      match hex4? a b c d with
      | none => none
      | some u =>
          match plainUnit? u with
          | some ch => readString (ch :: acc) rest
          | none =>
              match rest with
              | '\\' :: 'u' :: e :: f :: g :: h :: rest =>
                  match (hex4? e f g h).bind (pair? u) with
                  | some ch => readString (ch :: acc) rest
                  | none => none
              | _ => none
  | '\\' :: c :: rest =>
      match shortEscape? c with
      | some ch => readString (ch :: acc) rest
      | none => none
  | c :: rest => if c.toNat < 0x20 ∨ c = '\\' then none else readString (c :: acc) rest

/-- The characters that a number's text is made of. -/
def inNumber (c : Char) : Bool :=
  Number.isDigit c || c == '-' || c == '+' || c == '.' || c == 'e' || c == 'E'

/-- Takes a fixed text off the front. -/
def expect? (word : List Char) (cs : List Char) : Option (List Char) :=
  List.isPrefixOf? word cs

mutual

/-- Reads one value; `depth` is how much deeper values may nest. -/
def readValue : Nat → Nat → List Char → Option (Json × List Char)
  | 0, _, _ => none
  | fuel + 1, depth, cs =>
      match skipSpace cs with
      | '"' :: rest => (readString [] rest).map fun (s, rest) => (.str s, rest)
      | '[' :: rest =>
          match depth with
          | 0 => none
          | depth + 1 =>
              match skipSpace rest with
              | ']' :: rest => some (.arr [], rest)
              | rest => (readItems fuel depth rest).map fun (xs, rest) => (.arr xs, rest)
      | '\x7b' :: rest =>
          match depth with
          | 0 => none
          | depth + 1 =>
              match skipSpace rest with
              | '\x7d' :: rest => some (.obj [], rest)
              | rest => (readMembers fuel depth [] rest).map fun (ms, rest) => (.obj ms, rest)
      | 'n' :: rest => (expect? ['u', 'l', 'l'] rest).map fun rest => (.null, rest)
      | 't' :: rest => (expect? ['r', 'u', 'e'] rest).map fun rest => (.bool true, rest)
      | 'f' :: rest => (expect? ['a', 'l', 's', 'e'] rest).map fun rest => (.bool false, rest)
      | rest =>
          (Number.ofChars? (rest.takeWhile inNumber)).map fun n =>
            (.num n, rest.dropWhile inNumber)

/-- Reads the items up to the closing bracket. -/
def readItems : Nat → Nat → List Char → Option (List Json × List Char)
  | 0, _, _ => none
  | fuel + 1, depth, cs =>
      match readValue fuel depth cs with
      | none => none
      | some (x, rest) =>
          match skipSpace rest with
          | ',' :: rest => (readItems fuel depth rest).map fun (xs, rest) => (x :: xs, rest)
          | ']' :: rest => some ([x], rest)
          | _ => none

/-- Reads the members up to the closing brace. -/
def readMembers : Nat → Nat → Members → List Char → Option (Members × List Char)
  | 0, _, _, _ => none
  | fuel + 1, depth, acc, cs =>
      match skipSpace cs with
      | '"' :: rest =>
          match readString [] rest with
          | none => none
          | some (key, rest) =>
              match skipSpace rest with
              | ':' :: rest =>
                  match readValue fuel depth rest with
                  | none => none
                  | some (value, rest) =>
                      let acc := Table.insert acc key value
                      match skipSpace rest with
                      | ',' :: rest => readMembers fuel depth acc rest
                      | '\x7d' :: rest => some (acc, rest)
                      | _ => none
              | _ => none
      | _ => none

end

/-- How deep lists and objects may nest. -/
def nestingLimit : Nat := 127

/-- Reads a whole text as one value. -/
def ofText? (text : String) : Option Json :=
  let cs := text.toList
  match readValue (2 * cs.length + 2) nestingLimit cs with
  | some (value, rest) => if (skipSpace rest).isEmpty then some value else none
  | none => none

end Json

end SchemaForm
