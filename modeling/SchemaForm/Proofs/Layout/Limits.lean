/-
The bounds of lists.

Without fixed positions the number of items is as large as the positions that are asked for, the
lower limit and the existing values demand, up to the upper limit (`instanceCount_of`).  Bounds
that are computed again, from options that have them already, give the same number, also where
the array turns out to be required only then (`listCount_written`).
-/
import SchemaForm.Proofs.Layout.Sizes

namespace SchemaForm

theorem Json.word?_lt {j : Json} {n : Nat} (h : j.word? = some n) : n < Number.wordLimit := by
  cases j with
  | num x =>
      cases x with
      | int z =>
          simp only [Json.word?, Number.word?] at h
          split at h
          · next hz =>
              obtain rfl := Option.some.inj h
              omega
          · cases h
      | real x => cases h
  | _ => cases h

theorem Json.word?_nat (n : Nat) :
    (Json.nat n).word? = if n < Number.wordLimit then some n else none := by
  simp only [Json.nat, Json.word?, Number.word?]
  by_cases hn : n < Number.wordLimit
  · rw [if_pos hn, if_pos (by omega)]
    rfl
  · rw [if_neg hn, if_neg (by omega)]

namespace ArrayBounds

variable {schema : Json} {options : Members} {cap : Nat} {required : Bool}

theorem limit?_lt {source : Option Json} {n : Nat} (h : limit? source = some n) :
    n < Number.wordLimit := by
  obtain ⟨j, -, hj⟩ := Option.bind_eq_some_iff.mp h
  exact Json.word?_lt hj

theorem getD_limit?_lt {source : Option Json} {n : Nat} (hn : n < Number.wordLimit) :
    (limit? source).getD n < Number.wordLimit := by
  cases h : limit? source with
  | none => exact hn
  | some m => exact limit?_lt h

theorem lower_lt : lower schema options required < Number.wordLimit := by
  have hschema : (limit? (schema.get? "minItems")).getD 0 < Number.wordLimit :=
    getD_limit?_lt (by decide)
  have hoption : (limit? (Table.get? options "minItems")).getD 0 < Number.wordLimit :=
    getD_limit?_lt (by decide)
  have hone : 1 < Number.wordLimit := by decide
  unfold lower
  dsimp only
  split
  · exact hone
  · exact Nat.max_lt.mpr ⟨hschema, hoption⟩

/-- The list positions asked for. -/
def wanted (options : Members) : Nat := (limit? (Table.get? options "listItems")).getD 1

theorem wanted_lt : wanted options < Number.wordLimit := getD_limit?_lt (by decide)

theorem add_words_zero {n : Nat} (hn : n < Number.wordLimit) : Counting.add .words 0 n = n := by
  rw [Counting.add, Nat.zero_add, Nat.mod_eq_of_lt hn]

theorem sub_words_zero {n : Nat} (hn : n < Number.wordLimit) : Counting.sub .words n 0 = n := by
  rw [Counting.sub, Nat.sub_zero, Nat.add_mod_right, Nat.mod_eq_of_lt hn]

/-- The list positions that are left without fixed ones. -/
theorem fit_list {maxItems minItems list : Nat} (hmin : minItems < Number.wordLimit)
    (hlist : list < Number.wordLimit) :
    fit .words maxItems minItems 0 list = ⟨maxItems, minItems, 0,
      if maxItems < list then maxItems else max list minItems⟩ := by
  unfold fit
  rw [if_neg (Nat.not_lt_zero _), add_words_zero hlist]
  by_cases hmax : maxItems < list
  · rw [if_pos hmax, if_pos hmax, sub_words_zero (hmax.trans hlist)]
  · rw [if_neg hmax, if_neg hmax]
    split
    · next hlt => rw [sub_words_zero hmin, Nat.max_eq_right hlt.le]
    · next hle => rw [Nat.max_eq_left (Nat.le_of_not_lt hle)]

/-- The number of items of a list: as many as are asked for, as are needed and as there are
values, but not more than there may be. -/
def listCount (schema : Json) (options : Members) (cap : Nat) (required : Bool) (existing : Nat) :
    Nat :=
  min (max (max (wanted options) (lower schema options required)) existing)
    (upper schema options cap)

/-- It depends on the limits among the options only. -/
theorem listCount_congr {options' : Members}
    (h : ∀ key ∈ ["maxItems", "minItems", "listItems"],
      Table.get? options key = Table.get? options' key) (existing : Nat) :
    listCount schema options cap required existing =
      listCount schema options' cap required existing := by
  simp only [listCount, wanted, lower, upper, h "maxItems" (by decide), h "minItems" (by decide),
    h "listItems" (by decide)]

theorem instanceCount_of (htuple : tupleLength schema = 0) (existing : Nat) :
    (of .words schema options cap required).instanceCount .words existing =
      listCount schema options cap required existing := by
  unfold of
  rw [htuple]
  have hlower : lower schema options required < Number.wordLimit := lower_lt
  have hwanted : wanted options < Number.wordLimit := wanted_lt
  change (fit .words _ _ 0 (wanted options)).instanceCount .words existing = _
  rw [fit_list hlower hwanted]
  unfold instanceCount listCount
  dsimp only
  split
  · next hmax =>
      rw [add_words_zero (hmax.trans hwanted)]
      omega
  · rw [add_words_zero (Nat.max_lt.mpr ⟨hwanted, hlower⟩)]

theorem limit?_nat (n : Nat) :
    limit? (some (Json.nat n)) = if n < Number.wordLimit then some n else none := by
  rw [limit?, Option.bind_some, Json.word?_nat]

/-- An upper limit that is among the options already stays, also one that is no word. -/
theorem upper_written {written : Members}
    (h : Table.get? written "maxItems" = some (Json.nat (upper schema options cap))) :
    upper schema written cap = upper schema options cap := by
  have hschema : upper schema options cap ≤ (limit? (schema.get? "maxItems")).getD cap :=
    Nat.min_le_left _ _
  have hoption : upper schema options cap ≤ (limit? (Table.get? options "maxItems")).getD cap :=
    Nat.min_le_right _ _
  unfold upper at h ⊢
  rw [h, limit?_nat]
  split
  · rw [Option.getD_some]
    exact Nat.min_eq_right hschema
  · next hword =>
      -- neither limit is a word then, so both are the cap
      rw [Option.getD_none]
      have hlarge : ∀ {source : Option Json}, upper schema options cap ≤
          (limit? source).getD cap → (limit? source).getD cap = cap := by
        intro source hle
        cases hs : limit? source with
        | none => rfl
        | some n =>
            rw [hs, Option.getD_some] at hle
            exact absurd (lt_of_le_of_lt hle (limit?_lt hs)) hword
      rw [hlarge hschema, hlarge hoption]

/-- A requirement makes the lower limit one where there is none. -/
theorem lower_eq (schema : Json) (options : Members) (required : Bool) :
    lower schema options required =
    if lower schema options false = 0 ∧ required = true then 1
    else lower schema options false := by
  simp [lower]

theorem lower_false (schema : Json) (options : Members) : lower schema options false =
    max ((limit? (schema.get? "minItems")).getD 0)
      ((limit? (Table.get? options "minItems")).getD 0) := by
  simp [lower]

theorem lower_le_required : lower schema options false ≤ lower schema options required := by
  rw [lower_eq schema options required]
  split <;> omega

/-- A lower limit that is among the options already stays. -/
theorem lower_written {written : Members}
    (h : Table.get? written "minItems" = some (Json.nat (lower schema options false))) :
    lower schema written required = lower schema options required := by
  have hleast : lower schema written false = lower schema options false := by
    rw [lower_false schema written, h, limit?_nat, if_pos lower_lt, Option.getD_some,
      lower_false, Nat.max_eq_right (Nat.le_max_left _ _)]
  rw [lower_eq _ written, hleast, ← lower_eq]

/-- Where the bounds without requirement are among the options already, the number is the one
that is found with the requirement at once. -/
theorem listCount_written {written : Members} (htuple : tupleLength schema = 0)
    (h : Control.HasBounds { options := written } (of .words schema options cap false))
    (existing : Nat) :
    listCount schema written cap required existing =
      listCount schema options cap required existing := by
  have hlower : lower schema options false < Number.wordLimit := lower_lt
  have hwanted : wanted options < Number.wordLimit := wanted_lt
  have hbounds : of .words schema options cap false = ⟨upper schema options cap,
      lower schema options false, 0, if upper schema options cap < wanted options
        then upper schema options cap
        else max (wanted options) (lower schema options false)⟩ := by
    rw [of, htuple]
    exact fit_list hlower hwanted
  rw [hbounds] at h
  have hlist : wanted written = if upper schema options cap < wanted options
      then upper schema options cap
      else max (wanted options) (lower schema options false) := by
    have hword : (if upper schema options cap < wanted options then upper schema options cap
        else max (wanted options) (lower schema options false)) < Number.wordLimit := by
      split
      · next hlt => exact hlt.trans hwanted
      · exact Nat.max_lt.mpr ⟨hwanted, hlower⟩
    rw [wanted, h.listItems, limit?_nat, if_pos hword]
    rfl
  have hle : lower schema options false ≤ lower schema options required := lower_le_required
  unfold listCount
  rw [upper_written h.maxItems, lower_written h.minItems, hlist]
  split <;> omega

theorem add_words_lt (a b : Nat) : Counting.add .words a b < Number.wordLimit :=
  Nat.mod_lt _ (by decide)

/-- The positions that are left after the fixed ones fill up what there is. -/
theorem add_sub_words {n tuple : Nat} (hn : n < Number.wordLimit) (ht : tuple ≤ Number.wordLimit) :
    Counting.add .words tuple (Counting.sub .words n tuple) = n := by
  have hsum : tuple + (n + (Number.wordLimit - tuple)) = n + Number.wordLimit := by omega
  rw [Counting.add, Counting.sub, Nat.add_mod_mod, hsum, Nat.add_mod_right, Nat.mod_eq_of_lt hn]

/-- Fitting the list positions that were found without a requirement gives the same with it, if
the lower limit is not above the upper one. -/
theorem fit_fit {maxItems minItems minItems' tuple list : Nat}
    (hmin : minItems' = if minItems = 0 ∧ required = true then 1 else minItems)
    (hle : minItems' ≤ maxItems) (hword : minItems < Number.wordLimit) :
    fit .words maxItems minItems' tuple (fit .words maxItems minItems tuple list).listItems =
      fit .words maxItems minItems' tuple list := by
  unfold fit
  by_cases htuple : maxItems < tuple
  · rw [if_pos htuple, if_pos htuple]
  rw [if_neg htuple, if_neg htuple, if_neg htuple]
  by_cases hmax : maxItems < Counting.add .words tuple list
  · -- as many as there may be, which is a word
    have hlimit : maxItems < Number.wordLimit := hmax.trans (add_words_lt _ _)
    have hfull := add_sub_words hlimit (Nat.le_of_not_lt htuple |>.trans hlimit.le)
    rw [if_pos hmax, if_pos hmax, hfull, if_neg (Nat.lt_irrefl _), if_neg (Nat.not_lt.mpr hle)]
  rw [if_neg hmax, if_neg hmax]
  by_cases hfew : Counting.add .words tuple list < minItems
  · -- as many as there have to be
    obtain rfl : minItems' = minItems := by
      rw [hmin, if_neg]
      omega
    have hfits : ¬maxItems < Counting.add .words tuple (Counting.sub .words minItems' tuple) := by
      by_cases ht : tuple ≤ Number.wordLimit
      · rw [add_sub_words hword ht]
        exact Nat.not_lt.mpr hle
      · have hlt := add_words_lt tuple (Counting.sub .words minItems' tuple)
        omega
    rw [if_pos hfew, if_neg hfits]
    split <;> rfl
  · rw [if_neg hfew, if_neg hmax]

theorem of_limits (schema : Json) (options : Members) (cap : Nat) (required : Bool) :
    (of .words schema options cap required).maxItems = upper schema options cap ∧
      (of .words schema options cap required).minItems = lower schema options required := by
  unfold of fit
  split
  · exact ⟨rfl, rfl⟩
  · split
    · exact ⟨rfl, rfl⟩
    · split <;> exact ⟨rfl, rfl⟩

/-- **Bounds found again.**  Where the bounds without requirement are among the options already,
they are found again, with the requirement, if the lower limit is not above the upper one. -/
theorem of_written {written : Members}
    (h : Control.HasBounds { options := written } (of .words schema options cap false))
    (hle : lower schema options required ≤ upper schema options cap) :
    of .words schema written cap required = of .words schema options cap required := by
  have hlower : lower schema options false < Number.wordLimit := lower_lt
  have hmax := (of_limits schema options cap false).1
  have hmin := (of_limits schema options cap false).2
  have hlist : wanted written = (of .words schema options cap false).listItems := by
    have hword : (of .words schema options cap false).listItems < Number.wordLimit := by
      have hpos : 0 < Number.wordLimit := by decide
      unfold of fit
      split
      · exact hpos
      · split
        · exact Nat.mod_lt _ (by decide)
        · split
          · exact Nat.mod_lt _ (by decide)
          · exact wanted_lt
    rw [wanted, h.listItems, limit?_nat, if_pos hword]
    rfl
  have hupper : upper schema written cap = upper schema options cap := by
    refine upper_written ?_
    rw [h.maxItems, hmax]
  have hlow : lower schema written required = lower schema options required := by
    refine lower_written ?_
    rw [h.minItems, hmin]
  rw [of, hupper, hlow]
  change fit .words _ _ _ (wanted written) = _
  rw [hlist]
  exact fit_fit (lower_eq _ _ _) hle hlower

end ArrayBounds

end SchemaForm
