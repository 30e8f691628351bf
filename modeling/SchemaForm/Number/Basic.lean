/-
The two kinds of number in a JSON document.

An integer that fits sixty-four bits, signed or unsigned, is exact; every other
number is a binary64 number.  The kinds do not mix in comparisons for equality:
`1` and `1.0` are different values.
-/
import SchemaForm.Number.Shortest

namespace SchemaForm

/-- A number of a JSON document. -/
inductive Number where
  | int (value : Int)
  | real (value : Binary64)
deriving DecidableEq, Repr

namespace Number

/-- One more than the largest unsigned word. -/
def wordLimit : Nat := Nat.pow 2 64

/-- One more than the largest signed word. -/
def signedLimit : Nat := Nat.pow 2 63

/-- Equality within one kind. -/
def same : Number → Number → Bool
  | .int a, .int b => a == b
  | .real x, .real y => x.same y
  | _, _ => false

/-- The number as a word, when it is an integer that fits one. -/
def word? : Number → Option Nat
  | .int z => if 0 ≤ z ∧ z < wordLimit then some z.toNat else none
  | .real _ => none

/-- The nearest binary64 number. -/
def toReal? : Number → Option Binary64
  | .int z => Binary64.ofInt? z
  | .real x => some x

/-- An integer when the number is one and lies strictly between the ends of the
signed words, and a binary64 number otherwise. -/
def ofReal (x : Binary64) : Number :=
  match x.toInt? with
  | some z => if z.natAbs < signedLimit then .int z else .real x
  | none => .real x

theorem same_refl (n : Number) : n.same n = true := by
  cases n with
  | int z => simp [same]
  | real x => exact x.same_refl

theorem same_comm (m n : Number) : m.same n = n.same m := by
  cases m <;> cases n <;> simp [same, Bool.beq_comm, Binary64.same_comm]

end Number

end SchemaForm
