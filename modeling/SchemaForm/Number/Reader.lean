/-
Reading the text of a number.

The text is a sign, digits without a leading zero, an optional fraction and an
optional exponent.  Digits are gathered into one word; those that no longer fit
only count towards the power of ten, and the significand is then multiplied or
divided by that power, each step rounded by itself.  A number beyond the largest
binary64 number cannot be read.
-/
import SchemaForm.Number.Basic

namespace SchemaForm

namespace Number

def digit? (c : Char) : Option Nat :=
  if '0' ≤ c ∧ c ≤ '9' then some (c.toNat - '0'.toNat) else none

def isDigit (c : Char) : Bool := (digit? c).isSome

/-- The number that digits spell. -/
def ofDigits (cs : List Char) : Nat :=
  cs.foldl (fun n c => n * 10 + (digit? c).getD 0) 0

/-- A word gathered digit by digit, and how many digits it holds and leaves over. -/
structure Gathered where
  word : Nat
  taken : Nat
  left : Nat

/-- Appends digits to a word until the first that does not fit; the others are left over. -/
def gather (start : Nat) : List Char → Gathered
  | [] => ⟨start, 0, 0⟩
  | c :: rest =>
      let next := start * 10 + (digit? c).getD 0
      if next < wordLimit then
        let g := gather next rest
        ⟨g.word, g.taken + 1, g.left⟩
      else ⟨start, 0, rest.length + 1⟩

/-- A power of ten that is a binary64 number. -/
def power? (n : Nat) : Option Binary64 :=
  if n ≤ 308 then Binary64.ofNat? (Nat.pow 10 n) else none

/-- Divides once by the largest power of ten. -/
def lowered? (x : Binary64) : Option Binary64 :=
  (power? 308).bind x.div?

/-- Multiplies by a power of ten in one step, or divides by it in steps of at
most `1e308` for as long as anything is left. -/
def scaled? (x : Binary64) (exponent : Int) : Option Binary64 :=
  if exponent < -308 then
    if x.isZero then some x
    else (lowered? x).bind fun y => scaled? y (exponent + 308)
  else if 0 ≤ exponent then
    match power? exponent.toNat with
    | some p => x.mul? p
    | none => if x.isZero then some x else none
  else (power? exponent.natAbs).bind x.div?
termination_by (-exponent).toNat
decreasing_by omega

/-- The signed number with the given significand and power of ten. -/
def real? (negative : Bool) (significand : Nat) (exponent : Int) : Option Number :=
  match Binary64.ofNat? significand with
  | none => none
  | some start =>
      match scaled? start exponent with
      | none => none
      | some x => some (.real (if negative then x.neg else x))

/-- Exponents are kept within signed words of thirty-two bits. -/
def clampExponent (e : Int) : Int := max (-2147483648) (min 2147483647 e)

/-- The number with a written exponent.  An exponent past every limit gives zero
when it is negative or the digits are all zero, and cannot be read otherwise. -/
def withExponent? (negative : Bool) (significand : Nat) (start : Int) (negativeExponent : Bool)
    (written : Nat) : Option Number :=
  if written > 2147483647 then
    if significand = 0 ∨ negativeExponent then
      some (.real (Binary64.ofMagnitude negative 0))
    else none
  else
    let e := if negativeExponent then start - written else start + written
    real? negative significand (clampExponent e)

/-- The parts of a number's text. -/
structure Parts where
  negative : Bool
  whole : List Char
  fraction : Option (List Char)
  exponent : Option (Bool × List Char)

/-- Splits off a leading sign of an exponent. -/
def exponentSign : List Char → Bool × List Char
  | '+' :: rest => (false, rest)
  | '-' :: rest => (true, rest)
  | rest => (false, rest)

/-- The exponent part, which has at least one digit and ends the text. -/
def exponentPart? : List Char → Option (Option (Bool × List Char))
  | [] => some none
  | c :: rest =>
      if c = 'e' ∨ c = 'E' then
        let (sign, digits) := exponentSign rest
        if digits ≠ [] ∧ digits.all isDigit then some (some (sign, digits)) else none
      else none

/-- Splits the text of a number, refusing a leading zero and empty parts. -/
def parts? (cs : List Char) : Option Parts := do
  let negative := cs.head? == some '-'
  let cs := if negative then cs.tail else cs
  let whole := cs.takeWhile isDigit
  if whole = [] ∨ (whole.head? = some '0' ∧ whole.length ≠ 1) then none
  match cs.dropWhile isDigit with
  | '.' :: rest =>
      let fraction := rest.takeWhile isDigit
      if fraction = [] then none
      let exponent ← exponentPart? (rest.dropWhile isDigit)
      return ⟨negative, whole, some fraction, exponent⟩
  | rest =>
      let exponent ← exponentPart? rest
      return ⟨negative, whole, none, exponent⟩

/-- Reads a whole text as a number. -/
def ofChars? (cs : List Char) : Option Number := do
  let p ← parts? cs
  let whole := gather 0 p.whole
  match p.fraction, p.exponent with
  | none, none =>
      if whole.left ≠ 0 then real? p.negative whole.word whole.left
      else if p.negative then
        if 0 < whole.word ∧ whole.word ≤ signedLimit then some (.int (-(whole.word : Int)))
        else real? true whole.word 0
      else some (.int whole.word)
  | fraction, exponent =>
      let g := gather whole.word (fraction.getD [])
      let start : Int := (whole.left : Int) - g.taken
      match exponent with
      | none => real? p.negative g.word start
      | some (sign, digits) => withExponent? p.negative g.word start sign (ofDigits digits)

end Number

end SchemaForm
