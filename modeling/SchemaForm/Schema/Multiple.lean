/-
The least common multiple of two steps, which may be fractions.

Both steps are scaled by the power of ten that makes the longer of their
fractions whole, up to fifteen places, so that `0.1` and `0.25` give `0.5`.
-/
import SchemaForm.Number.Basic

namespace SchemaForm

namespace Binary64

/-- The digits after the point in the shortest text of the number. -/
def decimalPlaces (x : Binary64) : Nat := (Decimal.ofBinary64 x).places

/-- The number scaled by a power of ten and rounded to a natural; nothing where
that is no word. -/
def scaledWord? (x : Binary64) (scale : Binary64) : Option Nat :=
  ((x.abs.mul? scale).map roundAbs).filter (· < Number.wordLimit)

/-- The least common multiple of the absolute values; zero where there is none. -/
def lcm (x y : Binary64) : Binary64 :=
  let places := min (max x.decimalPlaces y.decimalPlaces) 15
  let multiple? : Option Binary64 := do
    let scale ← ofNat? (Nat.pow 10 places)
    let a ← scaledWord? x scale
    let b ← scaledWord? y scale
    if a = 0 ∨ b = 0 then none
    (← ofNat? (a / Nat.gcd a b * b)).div? scale
  multiple?.getD zero

end Binary64

end SchemaForm
