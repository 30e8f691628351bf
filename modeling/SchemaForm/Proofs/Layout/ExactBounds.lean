/-
The bounds of arrays in exact numbers.

However the limits are combined, the fixed and list positions are together as many as are asked for
or needed, cut off at the upper limit (`fit_exact`).  All that is said of exact bounds is read off
that number: they lie within their limits, and where the lower limit is not above the upper one they
are a fixed point, that is, found again in options that have them already (`of_exact_bounded`).
-/
import SchemaForm.Proofs.Layout.Filling
import SchemaForm.Proofs.Layout.Limits

namespace SchemaForm

namespace ArrayBounds

variable {schema : Json} {options written : Members} {cap : Nat} {required : Bool}

/-- The number of positions laid out at first. -/
def positions (maxItems minItems wanted : Nat) : Nat :=
  if maxItems < wanted then maxItems else max wanted minItems

theorem positions_le {maxItems minItems : Nat} (h : minItems ≤ maxItems) (wanted : Nat) :
    positions maxItems minItems wanted ≤ maxItems := by
  unfold positions
  split <;> omega

theorem le_positions {maxItems minItems : Nat} (h : minItems ≤ maxItems) (wanted : Nat) :
    minItems ≤ positions maxItems minItems wanted := by
  unfold positions
  split <;> omega

/-- The list positions are what the fixed ones leave over. -/
theorem fit_exact (maxItems minItems tuple list : Nat) :
    fit .exact maxItems minItems tuple list = ⟨maxItems, minItems, min tuple maxItems,
      positions maxItems minItems (tuple + list) - min tuple maxItems⟩ := by
  unfold fit positions Counting.add Counting.sub
  dsimp only
  split_ifs <;> simp only [mk.injEq, true_and] <;> omega

/-- Three items are needed, and one of them is fixed. -/
example : fit .exact 1000 3 1 1 = ⟨1000, 3, 1, 2⟩ := by decide

theorem fit_exact_sum (maxItems minItems tuple list : Nat) :
    (fit .exact maxItems minItems tuple list).tupleItems +
      (fit .exact maxItems minItems tuple list).listItems =
        positions maxItems minItems (tuple + list) := by
  rw [fit_exact]
  unfold positions
  dsimp only
  split <;> omega

/-- Fitting the list positions that were found gives them again. -/
theorem fit_exact_again {maxItems minItems : Nat} (h : minItems ≤ maxItems) (tuple list : Nat) :
    fit .exact maxItems minItems tuple (fit .exact maxItems minItems tuple list).listItems =
      fit .exact maxItems minItems tuple list := by
  simp only [fit_exact, mk.injEq, true_and]
  unfold positions
  split_ifs <;> omega

theorem fit_exact_listItems_lt {maxItems minItems tuple list : Nat}
    (hmin : minItems < Number.wordLimit) (hlist : list < Number.wordLimit) :
    (fit .exact maxItems minItems tuple list).listItems < Number.wordLimit := by
  rw [fit_exact]
  unfold positions
  dsimp only
  split <;> omega

/-- A lower limit that is among the options already stays, also one that a requirement has made. -/
theorem lower_rewritten
    (h : Table.get? written "minItems" = some (Json.nat (lower schema options required))) :
    lower schema written required = lower schema options required := by
  have hschema : (limit? (schema.get? "minItems")).getD 0 ≤ lower schema options required :=
    calc (limit? (schema.get? "minItems")).getD 0 ≤ lower schema options false := by
          rw [lower_false]
          exact Nat.le_max_left _ _
      _ ≤ lower schema options required := lower_le_required
  have hleast : lower schema written false = lower schema options required := by
    rw [lower_false, h, limit?_nat, if_pos lower_lt, Option.getD_some, Nat.max_eq_right hschema]
  rw [lower_eq _ written, hleast, if_neg]
  rintro ⟨hzero, rfl⟩
  rw [lower_eq] at hzero
  split at hzero
  · exact absurd hzero Nat.one_ne_zero
  · next hpositive => exact hpositive ⟨hzero, rfl⟩

/-- The exact bounds as they are fitted. -/
theorem of_exact (schema : Json) (options : Members) (cap : Nat) (required : Bool) :
    of .exact schema options cap required =
      fit .exact (upper schema options cap) (lower schema options required) (tupleLength schema)
        (wanted options) :=
  rfl

/-- Exact bounds are found again in options that have them already. -/
theorem of_exact_written
    (h : Control.HasBounds { options := written } (of .exact schema options cap required))
    (hle : lower schema options required ≤ upper schema options cap) :
    of .exact schema written cap required = of .exact schema options cap required := by
  rw [of_exact] at h
  have hword : (fit .exact (upper schema options cap) (lower schema options required)
      (tupleLength schema) (wanted options)).listItems < Number.wordLimit :=
    fit_exact_listItems_lt lower_lt wanted_lt
  have hupper : upper schema written cap = upper schema options cap := by
    refine upper_written ?_
    rw [h.maxItems, fit_exact]
  have hlower : lower schema written required = lower schema options required := by
    refine lower_rewritten ?_
    rw [h.minItems, fit_exact]
  have hwanted : wanted written = (fit .exact (upper schema options cap)
      (lower schema options required) (tupleLength schema) (wanted options)).listItems := by
    rw [wanted, h.listItems, limit?_nat, if_pos hword, Option.getD_some]
  rw [of_exact, of_exact, hupper, hlower, hwanted]
  exact fit_exact_again hle _ _

/-- **Exact bounds.**  Fixed positions are laid out up to the number that the schema describes and
up to the upper limit, and no number of values makes more items than that.  Where the lower limit is
not above the upper one, there are always as many items as are needed, the positions laid out at
first are not too many, more values never make fewer items, and the same bounds are found again in
options into which they have been written. -/
theorem of_exact_bounded (schema : Json) (options : Members) (cap : Nat) (required : Bool) :
    let b := of .exact schema options cap required
    b.tupleItems ≤ tupleLength schema ∧ b.tupleItems ≤ b.maxItems ∧
      (∀ existing, b.instanceCount .exact existing ≤ b.maxItems) ∧
      (b.minItems ≤ b.maxItems →
        (∀ existing, b.minItems ≤ b.instanceCount .exact existing) ∧
          b.tupleItems + b.listItems ≤ b.maxItems ∧
          (∀ existing more, existing ≤ more →
            b.instanceCount .exact existing ≤ b.instanceCount .exact more) ∧
          ∀ into, of .exact schema (b.writeOptions into) cap required = b) := by
  intro b
  have hfit : b = fit .exact (upper schema options cap) (lower schema options required)
      (tupleLength schema) (wanted options) := of_exact schema options cap required
  have htuple : b.tupleItems ≤ b.maxItems := by
    rw [hfit]
    exact fit_tupleItems_le ..
  refine ⟨?_, htuple, instanceCount_le .exact b, fun hle => ?_⟩
  · rw [hfit, fit_exact]
    exact Nat.min_le_left _ _
  have hlimits : lower schema options required ≤ upper schema options cap := by
    rw [hfit, fit_exact] at hle
    exact hle
  have hsum : b.tupleItems + b.listItems = positions (upper schema options cap)
      (lower schema options required) (tupleLength schema + wanted options) := by
    rw [hfit, fit_exact_sum]
  have hmax : b.maxItems = upper schema options cap := by rw [hfit, fit_exact]
  have hmin : b.minItems = lower schema options required := by rw [hfit, fit_exact]
  have hneeded : b.minItems ≤ b.tupleItems + b.listItems := by
    rw [hsum, hmin]
    exact le_positions hlimits _
  refine ⟨fun existing => ?_, ?_, fun existing more hmore => ?_, fun into => ?_⟩
  · exact Nat.le_min.mpr ⟨hneeded.trans (Nat.le_max_left _ _), hle⟩
  · rw [hsum, hmax]
    exact positions_le hlimits _
  · unfold instanceCount
    gcongr
  · exact of_exact_written (writeOptions_hasBounds b { options := into }) hlimits

end ArrayBounds

end SchemaForm
