/-
Counting items without overflow.

The additions and subtractions of words are taken down while the bounds of an array and its number
of items are computed (`countRecorded`).  They all have the result that they have in exact numbers
if and only if there are more fixed positions than there may be, or else the fixed positions and the
list positions asked for are together a word (`operations_fit_iff`).  Nothing limits the list
positions that the options ask for before they are added, so that the sum may overflow
(`not_operations_fit`); then the fixed positions may be more than the lower limit that they are
subtracted from, too.
-/
import SchemaForm.Proofs.Layout.ExactBounds

namespace SchemaForm

namespace Counting

/-- An addition or a subtraction of words. -/
inductive Operation where
  | sum (a b : Nat)
  | difference (a b : Nat)
deriving DecidableEq

namespace Operation

def result : Operation → Nat
  | sum a b => add words a b
  | difference a b => sub words a b

/-- There is neither overflow nor underflow. -/
def Fits : Operation → Prop
  | sum a b => a + b < Number.wordLimit
  | difference a b => b ≤ a

instance : (op : Operation) → Decidable op.Fits
  | sum a b => inferInstanceAs (Decidable (a + b < Number.wordLimit))
  | difference a b => inferInstanceAs (Decidable (b ≤ a))

end Operation

/-- A value with the operations by which it was computed. -/
structure Recorded (α : Type) where
  value : α
  operations : List Operation

namespace Recorded

instance : Monad Recorded where
  pure v := ⟨v, []⟩
  bind x f := ⟨(f x.value).value, x.operations ++ (f x.value).operations⟩

/-- Computes one operation. -/
def compute (op : Operation) : Recorded Nat := ⟨op.result, [op]⟩

variable {α β : Type}

theorem pure_eq (v : α) : (pure v : Recorded α) = ⟨v, []⟩ := rfl

theorem bind_eq (x : Recorded α) (f : α → Recorded β) :
    x >>= f = ⟨(f x.value).value, x.operations ++ (f x.value).operations⟩ :=
  rfl

end Recorded

end Counting

namespace ArrayBounds

open Counting Counting.Operation Counting.Recorded

/-- `fit` in words, with its operations taken down. -/
def fitRecorded (maxItems minItems tuple list : Nat) : Recorded ArrayBounds := do
  if maxItems < tuple then
    return ⟨maxItems, minItems, maxItems, 0⟩
  else if maxItems < (← compute (sum tuple list)) then
    return ⟨maxItems, minItems, tuple, ← compute (difference maxItems tuple)⟩
  else if (← compute (sum tuple list)) < minItems then
    return ⟨maxItems, minItems, tuple, ← compute (difference minItems tuple)⟩
  else
    return ⟨maxItems, minItems, tuple, list⟩

/-- `instanceCount` in words, with its operation taken down. -/
def instanceCountRecorded (b : ArrayBounds) (existing : Nat) : Recorded Nat := do
  return min (max (← compute (sum b.tupleItems b.listItems)) existing) b.maxItems

/-- The bounds of an array and its number of items, with all operations taken down. -/
def countRecorded (schema : Json) (options : Members) (cap : Nat) (required : Bool)
    (existing : Nat) : Recorded (ArrayBounds × Nat) := do
  let b ← fitRecorded (upper schema options cap) (lower schema options required)
    (tupleLength schema) (wanted options)
  return (b, ← b.instanceCountRecorded existing)

variable {maxItems minItems tuple list cap : Nat}

/-! ## What is taken down -/

/-- The operations of `fit`, which has the sum computed for each comparison. -/
def fitOperations (maxItems minItems tuple list : Nat) : List Operation :=
  if maxItems < tuple then []
  else if maxItems < add words tuple list then [sum tuple list, difference maxItems tuple]
  else if add words tuple list < minItems then
    [sum tuple list, sum tuple list, difference minItems tuple]
  else [sum tuple list, sum tuple list]

/-- Taking the operations down changes nothing. -/
theorem fitRecorded_eq (maxItems minItems tuple list : Nat) :
    fitRecorded maxItems minItems tuple list =
      ⟨fit .words maxItems minItems tuple list, fitOperations maxItems minItems tuple list⟩ := by
  simp only [fitRecorded, bind_eq, pure_eq, compute, fit, fitOperations, result]
  split_ifs <;> rfl

theorem countRecorded_eq (schema : Json) (options : Members) (cap : Nat) (required : Bool)
    (existing : Nat) :
    countRecorded schema options cap required existing =
      let b := of .words schema options cap required
      ⟨(b, b.instanceCount .words existing),
        fitOperations (upper schema options cap) (lower schema options required)
          (tupleLength schema) (wanted options) ++ [sum b.tupleItems b.listItems]⟩ := by
  rw [countRecorded, fitRecorded_eq]
  rfl

/-! ## Overflow -/

/-- Where the positions asked for are together a word, or too many fixed ones, nothing is lost. -/
theorem fit_words_exact (hmax : maxItems < Number.wordLimit) (hmin : minItems < Number.wordLimit)
    (h : maxItems < tuple ∨ tuple + list < Number.wordLimit) :
    fit .words maxItems minItems tuple list = fit .exact maxItems minItems tuple list := by
  unfold fit
  by_cases htuple : maxItems < tuple
  · rw [if_pos htuple, if_pos htuple]
  have hsum : add words tuple list = add exact tuple list :=
    add_words (h.resolve_left htuple)
  rw [if_neg htuple, if_neg htuple, hsum, sub_words hmax (Nat.le_of_not_lt htuple)]
  by_cases hfew : add exact tuple list < minItems
  · have hle : tuple ≤ minItems := (Nat.le_add_right tuple list).trans hfew.le
    rw [sub_words hmin hle]
  · rw [if_neg hfew, if_neg hfew]

/-- The fixed positions are subtracted from the upper limit only if it is not below them. -/
theorem le_of_difference_mem
    (h : difference maxItems tuple ∈ fitOperations maxItems minItems tuple list) :
    tuple ≤ maxItems := by
  unfold fitOperations at h
  split at h
  · cases h
  · next htuple => exact Nat.le_of_not_lt htuple

theorem fitOperations_fit_iff :
    (∀ op ∈ fitOperations maxItems minItems tuple list, op.Fits) ↔
      maxItems < tuple ∨ tuple + list < Number.wordLimit := by
  unfold fitOperations
  by_cases htuple : maxItems < tuple
  · rw [if_pos htuple]
    exact ⟨fun _ => .inl htuple, fun _ _ hop => absurd hop List.not_mem_nil⟩
  rw [if_neg htuple, or_iff_right htuple]
  constructor
  · intro h
    refine h (sum tuple list) ?_
    split_ifs <;> exact List.mem_cons_self
  · intro hword
    have hsum : add words tuple list = tuple + list := add_words hword
    have hfits : (sum tuple list).Fits := hword
    have hupper : (difference maxItems tuple).Fits := Nat.le_of_not_lt htuple
    rw [hsum]
    split_ifs with hmany hfew
    · simp [hfits, hupper]
    · have hlower : (difference minItems tuple).Fits := (Nat.le_add_right tuple list).trans hfew.le
      simp [hfits, hlower]
    · simp [hfits]

theorem upper_lt (hcap : cap < Number.wordLimit) (schema : Json) (options : Members) :
    upper schema options cap < Number.wordLimit :=
  (Nat.min_le_left _ _).trans_lt (getD_limit?_lt hcap)

/-- In exact numbers the positions laid out at first are never too many for a word. -/
theorem fit_exact_sum_lt (hmax : maxItems < Number.wordLimit) (hmin : minItems < Number.wordLimit) :
    (fit .exact maxItems minItems tuple list).tupleItems +
      (fit .exact maxItems minItems tuple list).listItems < Number.wordLimit := by
  rw [fit_exact_sum]
  unfold positions
  split <;> omega

/-- **Counting without overflow.**  All additions and subtractions that the bounds of an array and
its number of items take have the result that they have in exact numbers if and only if there are
more fixed positions than there may be, or else the fixed positions and the list positions asked for
are together a word.  Then the bounds and the number are those in exact numbers.  The fixed
positions are never subtracted from an upper limit that is below them. -/
theorem operations_fit_iff (hcap : cap < Number.wordLimit) (schema : Json) (options : Members)
    (required : Bool) (existing : Nat) :
    let b := of .words schema options cap required
    let e := of .exact schema options cap required
    let counted := countRecorded schema options cap required existing
    counted.value = (b, b.instanceCount .words existing) ∧
      ((∀ op ∈ counted.operations, op.Fits) ↔
        upper schema options cap < tupleLength schema ∨
          tupleLength schema + wanted options < Number.wordLimit) ∧
      ((∀ op ∈ counted.operations, op.Fits) →
        b = e ∧ b.instanceCount .words existing = e.instanceCount .exact existing) ∧
      (difference (upper schema options cap) (tupleLength schema) ∈ counted.operations →
        tupleLength schema ≤ upper schema options cap) := by
  intro b e counted
  have hmax : upper schema options cap < Number.wordLimit := upper_lt hcap schema options
  have hmin : lower schema options required < Number.wordLimit := lower_lt
  have hcounted : counted = _ := countRecorded_eq schema options cap required existing
  have hsum : e.tupleItems + e.listItems < Number.wordLimit := fit_exact_sum_lt hmax hmin
  have hexact : upper schema options cap < tupleLength schema ∨
      tupleLength schema + wanted options < Number.wordLimit → b = e :=
    fit_words_exact hmax hmin
  have hfits : (∀ op ∈ counted.operations, op.Fits) ↔
      upper schema options cap < tupleLength schema ∨
        tupleLength schema + wanted options < Number.wordLimit := by
    rw [hcounted]
    dsimp only
    rw [List.forall_mem_append, fitOperations_fit_iff, List.forall_mem_singleton]
    refine ⟨fun h => h.1, fun h => ⟨h, ?_⟩⟩
    change b.tupleItems + b.listItems < Number.wordLimit
    rw [hexact h]
    exact hsum
  refine ⟨?_, hfits, fun h => ?_, fun h => ?_⟩
  · rw [hcounted]
  · have hsame := hexact (hfits.mp h)
    refine ⟨hsame, ?_⟩
    rw [hsame, instanceCount, instanceCount, add_words hsum]
  · rw [hcounted] at h
    rcases List.mem_append.mp h with h | h
    · exact le_of_difference_mem h
    · cases List.mem_singleton.mp h

/-- An array with three fixed positions. -/
def tripleSchema : Json :=
  .obj [("type", .str "array"), ("items", .arr [.obj [], .obj [], .obj []]),
    ("minItems", Json.nat 2)]

/-- With a list position behind the fixed ones nothing overflows. -/
theorem operations_fit_iff_triple :
    1000 < Number.wordLimit ∧
      (∀ op ∈ (countRecorded tripleSchema [] 1000 false 7).operations, op.Fits) ∧
      of .words tripleSchema [] 1000 false = of .exact tripleSchema [] 1000 false := by
  have hcap : 1000 < Number.wordLimit := by decide
  obtain ⟨-, hfits, hexact, -⟩ := operations_fit_iff hcap tripleSchema [] false 7
  have hall := hfits.mpr (.inr (by decide +kernel))
  exact ⟨hcap, hall, (hexact hall).1⟩

/-- With almost as many list positions asked for as there are words the sum overflows, so that it
seems to be below the lower limit, and three is subtracted from two. -/
theorem not_operations_fit :
    1000 < Number.wordLimit ∧
      (countRecorded tripleSchema [("listItems", Json.nat (2 ^ 64 - 2))] 1000 false 0).operations =
        [sum 3 (2 ^ 64 - 2), sum 3 (2 ^ 64 - 2), difference 2 3, sum 3 (2 ^ 64 - 1)] ∧
      ¬(sum 3 (2 ^ 64 - 2)).Fits ∧ ¬(difference 2 3).Fits := by
  decide +kernel

end ArrayBounds

end SchemaForm
