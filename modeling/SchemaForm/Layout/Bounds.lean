/-
How many items an array control has and may have.

Limits come from the schema, from the options of the control and from the form,
and the fixed and list positions are fitted between them.  A form counts in
words of sixty-four bits; `Counting` also has the exact numbers beside them, with
which the two can be compared.
-/
import SchemaForm.Json.Basic

namespace SchemaForm

/-- How numbers of items are added and subtracted. -/
inductive Counting where
  /-- In words of sixty-four bits, where what does not fit starts again at zero. -/
  | words
  | exact
deriving DecidableEq, Repr

namespace Counting

def add : Counting → Nat → Nat → Nat
  | words, a, b => (a + b) % Number.wordLimit
  | exact, a, b => a + b

def sub : Counting → Nat → Nat → Nat
  | words, a, b => (a + (Number.wordLimit - b)) % Number.wordLimit
  | exact, a, b => a - b

theorem add_words {a b : Nat} (h : a + b < Number.wordLimit) : add words a b = add exact a b :=
  Nat.mod_eq_of_lt h

theorem sub_words {a b : Nat} (ha : a < Number.wordLimit) (hb : b ≤ a) :
    sub words a b = sub exact a b := by
  have hwrap : a + (Number.wordLimit - b) = a - b + Number.wordLimit := by omega
  simp only [sub, hwrap, Nat.add_mod_right]
  exact Nat.mod_eq_of_lt (by omega)

end Counting

/-- The item counts of an array control. -/
structure ArrayBounds where
  maxItems : Nat
  minItems : Nat
  /-- Fixed positions laid out. -/
  tupleItems : Nat
  /-- List positions laid out at first. -/
  listItems : Nat
deriving DecidableEq, Repr

namespace ArrayBounds

/-- A count given by a member, if it is a word. -/
def limit? (source : Option Json) : Option Nat := source.bind Json.word?

/-- The tighter upper limit of schema and options; `cap` stands for a missing one. -/
def upper (schema : Json) (options : Members) (cap : Nat) : Nat :=
  min ((limit? (schema.get? "maxItems")).getD cap)
    ((limit? (Table.get? options "maxItems")).getD cap)

/-- The tighter lower limit; a required array needs one item at least. -/
def lower (schema : Json) (options : Members) (required : Bool) : Nat :=
  let least := max ((limit? (schema.get? "minItems")).getD 0)
    ((limit? (Table.get? options "minItems")).getD 0)
  if least = 0 ∧ required then 1 else least

/-- The number of fixed positions that the schema describes. -/
def tupleLength (schema : Json) : Nat :=
  (((schema.get? "items").bind Json.arr?).map List.length).getD 0

/-- Fits fixed and list positions between the limits. -/
def fit (k : Counting) (maxItems minItems tuple list : Nat) : ArrayBounds :=
  if maxItems < tuple then ⟨maxItems, minItems, maxItems, 0⟩
  else if maxItems < k.add tuple list then ⟨maxItems, minItems, tuple, k.sub maxItems tuple⟩
  else if k.add tuple list < minItems then ⟨maxItems, minItems, tuple, k.sub minItems tuple⟩
  else ⟨maxItems, minItems, tuple, list⟩

/-- The bounds that schema and options set. -/
def of (k : Counting) (schema : Json) (options : Members) (cap : Nat) (required : Bool) :
    ArrayBounds :=
  fit k (upper schema options cap) (lower schema options required) (tupleLength schema)
    ((limit? (Table.get? options "listItems")).getD 1)

/-- The number of items laid out for so many existing values. -/
def instanceCount (k : Counting) (b : ArrayBounds) (existing : Nat) : Nat :=
  min (max (k.add b.tupleItems b.listItems) existing) b.maxItems

/-- Writes the bounds into options. -/
def writeOptions (b : ArrayBounds) (options : Members) : Members :=
  Table.insertAll options [
    ("maxItems", Json.nat b.maxItems),
    ("minItems", Json.nat b.minItems),
    ("tupleItems", Json.nat b.tupleItems),
    ("listItems", Json.nat b.listItems)]

end ArrayBounds

end SchemaForm
