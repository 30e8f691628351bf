/-
The shortest decimal that reads back as a given binary64 number.

Of the decimals with the fewest digits that round to the number, the one
nearest to it is chosen; of two equally near ones the even one.
-/
import SchemaForm.Number.Binary64

namespace SchemaForm

/-- A decimal `digits · 10 ^ exponent`. -/
structure Decimal where
  digits : Nat
  exponent : Int
deriving DecidableEq, Repr

namespace Decimal

/-- The number of decimal digits; one for zero. -/
def width (n : Nat) : Nat := (Nat.toDigits 10 n).length

/-- The exponent of the leading decimal digit of a positive quotient. -/
def leading (num den : Nat) : Int :=
  if den ≤ num then (width (num / den) : Int) - 1
  else
    let w := width (den / num)
    if den = num * Nat.pow 10 (w - 1) then -((w : Int) - 1) else -(w : Int)

/-- The decimal without trailing zeros among its digits. -/
def trim : Nat → Decimal → Decimal
  | 0, d => d
  | fuel + 1, d =>
      if d.digits ≠ 0 ∧ d.digits % 10 = 0 then trim fuel ⟨d.digits / 10, d.exponent + 1⟩ else d

/-- A closed or open interval of quotients over one denominator. -/
structure Reach where
  low : Nat
  high : Nat
  den : Nat
  closed : Bool

/-- The quotients that round to `|x|`: half a grid step to either side, half of
that below a power of two.  The ends belong to it when the significand is even. -/
def reach (x : Binary64) : Reach :=
  let unit := Nat.pow 2 (x.scale - 1074)
  let den := 4 * Nat.pow 2 (1074 - x.scale)
  let middle := 4 * x.significand * unit
  let below := if x.significand = Binary64.hiddenBit ∧ 0 < x.scale then unit else 2 * unit
  ⟨middle - below, middle + 2 * unit, den, x.significand % 2 = 0⟩

/-- Whether `n · 10 ^ e` lies in the interval. -/
def Reach.holds (r : Reach) (n : Nat) (e : Int) : Bool :=
  let value := n * Nat.pow 10 e.toNat * r.den
  let low := r.low * Nat.pow 10 (-e).toNat
  let high := r.high * Nat.pow 10 (-e).toNat
  if r.closed then low ≤ value && value ≤ high else low < value && value < high

/-- The better of a quotient's two neighbours on the grid of `10 ^ e`, among
those that lie in the interval. -/
def onGrid (r : Reach) (num den : Nat) (e : Int) : Option Nat :=
  let top := num * Nat.pow 10 (-e).toNat
  let bottom := den * Nat.pow 10 e.toNat
  let floor := top / bottom
  let twice := 2 * (top % bottom)
  match r.holds floor e, r.holds (floor + 1) e with
  | true, true =>
      some (if twice < bottom ∨ (twice = bottom ∧ floor % 2 = 0) then floor else floor + 1)
  | true, false => some floor
  | false, true => some (floor + 1)
  | false, false => none

/-- Tries grids of more and more digits. -/
def search (r : Reach) (num den : Nat) : Nat → Int → Option Decimal
  | 0, _ => none
  | tries + 1, e =>
      match onGrid r num den e with
      | some n => some ⟨n, e⟩
      | none => search r num den tries (e - 1)

/-- The shortest decimal that reads back as `|x|`.  Seventeen digits always do. -/
def ofBinary64 (x : Binary64) : Decimal :=
  if x.isZero then ⟨0, 0⟩
  else
    let (num, den) := x.ratio
    let top := leading num den
    match search (reach x) num den 17 top with
    | some d => trim (width d.digits) d
    | none => ⟨0, 0⟩

/-- How many digits stand after the point when the decimal is written without an exponent. -/
def places (d : Decimal) : Nat := (-d.exponent).toNat

end Decimal

end SchemaForm
