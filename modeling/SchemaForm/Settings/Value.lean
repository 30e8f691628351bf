/-
Configuration values and how they are read as what an option needs.

A value from a file keeps its kind; a value from the environment is a text that
is taken for a truth value, an integer or a number where it looks like one.  A
reader accepts every kind that has a sensible reading: `"yes"` is true, and `2.5`
is the count three.
-/
import SchemaForm.Json.Basic
import SchemaForm.Number.Reader
import SchemaForm.Text.LetterCase

namespace SchemaForm

/-- A configuration value. -/
inductive Setting where
  | nothing
  | flag (value : Bool)
  | int (value : Int)
  | real (value : Binary64)
  | infinite (negative : Bool)
  | undefined
  | text (value : String)
  | list (items : List Setting)
  | table (entries : List (String × Setting))
deriving Inhabited, Repr

namespace Setting

/-! ## From and to JSON -/

/-- A number as a signed word where it fits one, and as a real number otherwise. -/
def ofNumber : Number → Setting
  | .int z =>
      if -(Number.signedLimit : Int) ≤ z ∧ z < Number.signedLimit then .int z
      else
        match Binary64.ofInt? z with
        | some x => .real x
        | none => .infinite (z < 0)
  | .real x => .real x

mutual

def ofJson : Json → Setting
  | .null => .nothing
  | .bool b => .flag b
  | .num n => ofNumber n
  | .str s => .text s
  | .arr items => .list (ofJsonItems items)
  | .obj members => .table (ofJsonMembers members)

def ofJsonItems : List Json → List Setting
  | [] => []
  | x :: xs => ofJson x :: ofJsonItems xs

def ofJsonMembers : List (String × Json) → List (String × Setting)
  | [] => []
  | (key, value) :: rest => (key, ofJson value) :: ofJsonMembers rest

end

mutual

/-- The value as JSON, null where a number has no JSON form. -/
def toJson : Setting → Json
  | nothing => .null
  | flag b => .bool b
  | int z => .num (.int z)
  | real x => .num (.real x)
  | infinite _ => .null
  | undefined => .null
  | text s => .str s
  | list items => .arr (toJsonItems items)
  | table entries => .obj (toJsonEntries entries)

def toJsonItems : List Setting → List Json
  | [] => []
  | x :: xs => toJson x :: toJsonItems xs

def toJsonEntries : List (String × Setting) → List (String × Json)
  | [] => []
  | (key, value) :: rest => (key, toJson value) :: toJsonEntries rest

end

/-! ## From the environment -/

/-- A text without its sign, and whether the sign is a minus. -/
def unsigned : List Char → Bool × List Char
  | '-' :: rest => (true, rest)
  | '+' :: rest => (false, rest)
  | cs => (false, cs)

/-- A text that is a signed word. -/
def int? (cs : List Char) : Option Int :=
  let (negative, digits) := unsigned cs
  if digits ≠ [] ∧ digits.all Number.isDigit then
    let n : Int := Number.ofDigits digits
    let z := if negative then -n else n
    if -(Number.signedLimit : Int) ≤ z ∧ z < Number.signedLimit then some z else none
  else none

/-- The number `digits · 10 ^ exponent`, rounded once. -/
def decimal (negative : Bool) (digits : Nat) (exponent : Int) : Setting :=
  if digits = 0 ∨ exponent < -(400 + Decimal.width digits : Int) then
    .real (Binary64.ofMagnitude negative 0)
  else if 400 < exponent then .infinite negative
  else
    match Binary64.ofRatio? negative (digits * Nat.pow 10 exponent.toNat)
        (Nat.pow 10 (-exponent).toNat) with
    | some x => .real x
    | none => .infinite negative

/-- The written exponent that ends a text, zero where there is none. -/
def exponent? : List Char → Option Int
  | [] => some 0
  | c :: rest =>
      let (negative, digits) := unsigned rest
      if (c = 'e' ∨ c = 'E') ∧ digits ≠ [] ∧ digits.all Number.isDigit then
        let n : Int := Number.ofDigits digits
        some (if negative then -n else n)
      else none

/-- A text of digits, with a point before, among or after them and an exponent. -/
def decimal? (negative : Bool) (cs : List Char) : Option Setting :=
  let whole := cs.takeWhile Number.isDigit
  let rest := cs.dropWhile Number.isDigit
  let (fraction, rest) :=
    match rest with
    | '.' :: rest => (rest.takeWhile Number.isDigit, rest.dropWhile Number.isDigit)
    | rest => ([], rest)
  if whole.isEmpty && fraction.isEmpty then none
  else (exponent? rest).map fun e =>
    decimal negative (Number.ofDigits (whole ++ fraction)) (e - fraction.length)

/-- A text that is a number of any form. -/
def number? (cs : List Char) : Option Setting :=
  let (negative, cs) := unsigned cs
  let word := String.ofList (cs.map Char.toLower)
  if word = "inf" ∨ word = "infinity" then some (.infinite negative)
  else if word = "nan" then some .undefined
  else decimal? negative cs

/-- The value of an environment variable. -/
def ofEnvironment (value : String) : Setting :=
  let word := String.ofList (Text.lower value.toList)
  if word = "true" then .flag true
  else if word = "false" then .flag false
  else
    match int? value.toList with
    | some z => .int z
    | none => (number? value.toList).getD (.text value)

/-! ## As what an option needs -/

/-- The truth value that a word stands for. -/
def wordFlag? (word : String) : Option Bool :=
  if ["true", "on", "yes"].contains word then some true
  else if ["false", "off", "no"].contains word then some false
  else none

/-- The value as a truth value. -/
def asFlag? : Setting → Option Bool
  | flag b => some b
  | int z => some (z ≠ 0)
  | real x => some (!x.isZero)
  | infinite _ => some true
  | undefined => some true
  | text s =>
      let word := String.ofList (Text.lower s.toList)
      if word = "1" then some true else if word = "0" then some false else wordFlag? word
  | _ => none

/-- A text as a count. -/
def textCount? (s : String) : Option Nat :=
  match wordFlag? (String.ofList (Text.lower s.toList)) with
  | some b => some b.toNat
  | none =>
      let digits :=
        match s.toList with
        | '+' :: rest => rest
        | cs => cs
      if digits ≠ [] ∧ digits.all Number.isDigit ∧ Number.ofDigits digits < Number.wordLimit then
        some (Number.ofDigits digits)
      else none

/-- The value as a count; a number is rounded and kept within a word. -/
def asCount? : Setting → Option Nat
  | flag b => some b.toNat
  | int z => if 0 ≤ z then some z.toNat else none
  | real x => some (if x.isNegative then 0 else min x.roundAbs (Number.wordLimit - 1))
  | infinite negative => some (if negative then 0 else Number.wordLimit - 1)
  | undefined => some 0
  | text s => textCount? s
  | _ => none

/-- The value as options by name; no value at all stands for no options. -/
def asMembers? : Setting → Option Members
  | table entries => some (toJsonEntries entries)
  | nothing => some []
  | _ => none

end Setting

end SchemaForm
