/-
Finite binary64 numbers by their bit patterns, with exact arithmetic.

A number is decoded to a quotient of naturals, every operation is carried out
on quotients, and the result is rounded once, to the nearest number and in a
tie to the one with an even significand.  No machine arithmetic is involved,
so each operation can be reasoned about as it is written.
-/

namespace SchemaForm

/-- A finite binary64 number: sign, eleven exponent bits, fifty-two fraction bits. -/
structure Binary64 where
  bits : UInt64
deriving DecidableEq, Repr

namespace Binary64

/-- The sign's place in a pattern. -/
def signBit : Nat := Nat.pow 2 63

/-- The place after the fraction, where a significand has the bit that no pattern holds. -/
def hiddenBit : Nat := Nat.pow 2 52

/-- The pattern without its sign. -/
def magnitude (x : Binary64) : Nat :=
  x.bits.toNat % signBit

def isNegative (x : Binary64) : Bool :=
  decide (signBit ≤ x.bits.toNat)

/-- Puts a sign before a magnitude. -/
def ofMagnitude (negative : Bool) (magnitude : Nat) : Binary64 :=
  ⟨UInt64.ofNat (magnitude + if negative then signBit else 0)⟩

def zero : Binary64 := ofMagnitude false 0

def neg (x : Binary64) : Binary64 := ofMagnitude (!x.isNegative) x.magnitude

def abs (x : Binary64) : Binary64 := ofMagnitude false x.magnitude

/-- Magnitudes grow with the numbers they stand for, so the signed magnitude
orders the numbers; both zeros share one place. -/
def place (x : Binary64) : Int :=
  if x.isNegative then -(x.magnitude : Int) else x.magnitude

/-- Equality as numbers: the two zeros are equal. -/
def same (x y : Binary64) : Bool := x.place == y.place

/-- Strict order as numbers. -/
def less (x y : Binary64) : Bool := decide (x.place < y.place)

def isZero (x : Binary64) : Bool := x.magnitude == 0

/-- The significand `m` of `|x| = m · 2 ^ (scale - 1074)`, hidden bit included. -/
def significand (x : Binary64) : Nat :=
  x.magnitude % hiddenBit + if x.magnitude / hiddenBit = 0 then 0 else hiddenBit

/-- The exponent of two above the smallest one. -/
def scale (x : Binary64) : Nat :=
  x.magnitude / hiddenBit - 1

/-- `|x|` as numerator and denominator. -/
def ratio (x : Binary64) : Nat × Nat :=
  (x.significand * Nat.pow 2 (x.scale - 1074), Nat.pow 2 (1074 - x.scale))

/-- The quotient rounded to the nearest natural, a tie to the even one. -/
def roundEven (num den : Nat) : Nat :=
  let quotient := num / den
  let twice := 2 * (num % den)
  if den < twice ∨ (twice = den ∧ quotient % 2 = 1) then quotient + 1 else quotient

/-- The quotient rounded to the nearest natural, a tie upwards. -/
def roundUp (num den : Nat) : Nat :=
  (2 * num + den) / (2 * den)

/-- The exponent of the grid on which a positive quotient is rounded: the one
that leaves fifty-three bits, but no finer than the finest grid there is. -/
def gridExponent (num den : Nat) : Int :=
  let guess : Int := (num.log2 : Int) - den.log2 - 52
  let wide := hiddenBit * (den * Nat.pow 2 guess.toNat) ≤ num * Nat.pow 2 (-guess).toNat
  max (-1074) (if wide then guess else guess - 1)

/-- The number nearest to a quotient, or nothing where that is infinite. -/
def ofRatio? (negative : Bool) (num den : Nat) : Option Binary64 :=
  if num = 0 then some (ofMagnitude negative 0)
  else
    let q := gridExponent num den
    let steps := roundEven (num * Nat.pow 2 (-q).toNat) (den * Nat.pow 2 q.toNat)
    let magnitude := steps + (q + 1074).toNat * hiddenBit
    if magnitude < 0x7ff * hiddenBit then some (ofMagnitude negative magnitude) else none

def ofNat? (n : Nat) : Option Binary64 := ofRatio? false n 1

def ofInt? (z : Int) : Option Binary64 := ofRatio? (z < 0) z.natAbs 1

/-- The rounded product, or nothing where it is infinite. -/
def mul? (x y : Binary64) : Option Binary64 :=
  let (a, b) := x.ratio
  let (c, d) := y.ratio
  ofRatio? (x.isNegative != y.isNegative) (a * c) (b * d)

/-- The rounded quotient, or nothing where it is infinite or the divisor is zero. -/
def div? (x y : Binary64) : Option Binary64 :=
  if y.isZero then none
  else
    let (a, b) := x.ratio
    let (c, d) := y.ratio
    ofRatio? (x.isNegative != y.isNegative) (a * d) (b * c)

/-- `|x|` rounded to the nearest natural, a half upwards. -/
def roundAbs (x : Binary64) : Nat :=
  roundUp x.ratio.1 x.ratio.2

/-- The integer that the number is, if it is one. -/
def toInt? (x : Binary64) : Option Int :=
  let (num, den) := x.ratio
  if num % den = 0 then
    let n : Int := (num / den : Nat)
    some (if x.isNegative then -n else n)
  else none

theorem same_refl (x : Binary64) : x.same x = true := by
  simp [same]

theorem same_comm (x y : Binary64) : x.same y = y.same x := by
  simp [same, Bool.beq_comm]

end Binary64

end SchemaForm
