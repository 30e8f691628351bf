/-
How numbers are written.

Integers have no point.  A binary64 number is written with its shortest digits:
without an exponent from `1e-5` up to below `1e16`, then with at least one digit
after the point, and with an explicitly signed exponent elsewhere.
-/
import SchemaForm.Number.Basic

namespace SchemaForm

namespace Decimal

/-- The leading exponents that are written without an exponent part. -/
def isPositional (top : Int) : Bool := -5 ≤ top && top < 16

/-- The digits with a point among them or zeros around them. -/
def positional (digits : List Char) (top : Int) : List Char :=
  if top < 0 then
    ['0', '.'] ++ List.replicate (-top - 1).toNat '0' ++ digits
  else
    let whole := top.toNat + 1
    if digits.length ≤ whole then
      digits ++ List.replicate (whole - digits.length) '0' ++ ['.', '0']
    else digits.take whole ++ '.' :: digits.drop whole

/-- One digit, the others after a point, and a signed exponent. -/
def scientific (digits : List Char) (top : Int) : List Char :=
  let mantissa :=
    match digits with
    | [] => []
    | [d] => [d]
    | d :: rest => d :: '.' :: rest
  let sign := if top < 0 then '-' else '+'
  mantissa ++ 'e' :: sign :: Nat.toDigits 10 top.natAbs

/-- The text of a non-negative decimal. -/
def chars (d : Decimal) : List Char :=
  let digits := Nat.toDigits 10 d.digits
  let top := d.exponent + digits.length - 1
  if isPositional top then positional digits top else scientific digits top

end Decimal

namespace Number

/-- The text of a number. -/
def chars : Number → List Char
  | .int z => if z < 0 then '-' :: Nat.toDigits 10 z.natAbs else Nat.toDigits 10 z.natAbs
  | .real x =>
      let text := (Decimal.ofBinary64 x).chars
      if x.isNegative then '-' :: text else text

end Number

end SchemaForm
