/-
Generic pointers, segment by segment.

A segment gives way to the wildcard if and only if it is a list position of what stands in front of
it, in generic form (`ListPosition`, `genericSegment_eq_iff`).  That is settled from the top down,
so that what follows a place changes nothing in its generic form, and what is generic stays as it is
(`genericForm_stable`).
-/
import SchemaForm.Proofs.Pointer.Segments

namespace SchemaForm

namespace Pointer

variable {arrays : ArrayTable} {above segments : List String} {key : String}

/-- The key is a list position of the array at the segments above it. -/
def ListPosition (arrays : ArrayTable) (above : List String) (key : String) : Prop :=
  ∃ index fixed, index? key = some index ∧
    Table.get? arrays (ofSegments above) = some fixed ∧ fixed ≤ index

theorem genericSegment_eq_iff :
    genericSegment arrays above key = key ↔ ¬ListPosition arrays above key := by
  cases hindex : index? key with
  | none =>
      rw [genericSegment, hindex]
      refine iff_of_true rfl ?_
      rintro ⟨index, -, hread, -⟩
      rw [hindex] at hread
      cases hread
  | some index =>
      have hne : wildcard ≠ key := by
        rintro rfl
        cases hindex
      cases hfixed : Table.get? arrays (ofSegments above) with
      | none =>
          rw [genericSegment, hindex, hfixed]
          refine iff_of_true rfl ?_
          rintro ⟨-, fixed, -, hread, -⟩
          rw [hfixed] at hread
          cases hread
      | some fixed =>
          have hlist : ListPosition arrays above key ↔ fixed ≤ index := by
            constructor
            · rintro ⟨_, _, hread, hentry, hle⟩
              obtain rfl := Option.some.inj (hindex.symm.trans hread)
              obtain rfl := Option.some.inj (hfixed.symm.trans hentry)
              exact hle
            · exact fun hle => ⟨index, fixed, hindex, hfixed, hle⟩
          rw [genericSegment, hindex, hfixed, hlist]
          dsimp only
          split
          · next hle => exact iff_of_false hne (not_not_intro hle)
          · next hlt => exact iff_of_true rfl hlt

/-- Segments are in generic form if and only if none of them is a list position of what stands in
front of it. -/
theorem genericSegments_eq_iff :
    genericSegments arrays above segments = above ++ segments ↔
      ∀ front key rest, segments = front ++ key :: rest →
        ¬ListPosition arrays (above ++ front) key := by
  induction segments generalizing above with
  | nil =>
      rw [genericSegments, List.append_nil]
      refine iff_of_true rfl fun front key rest he => ?_
      exact absurd he.symm (List.append_ne_nil_of_right_ne_nil _ (List.cons_ne_nil _ _))
  | cons segment segments ih =>
      rw [genericSegments]
      constructor
      · intro h
        have hsame : genericSegment arrays above segment = segment := by
          obtain ⟨more, hmore⟩ :=
            prefix_genericSegments arrays (above ++ [genericSegment arrays above segment]) segments
          rw [h, List.append_assoc] at hmore
          exact (List.cons.inj (List.append_cancel_left hmore)).1
        rw [hsame, List.append_cons above segment segments] at h
        have hrest := ih.mp h
        intro front key rest he
        cases front with
        | nil =>
            obtain ⟨rfl, rfl⟩ := List.cons.inj he
            rw [List.append_nil]
            exact genericSegment_eq_iff.mp hsame
        | cons first front =>
            obtain ⟨rfl, rfl⟩ := List.cons.inj he
            rw [List.append_cons above segment front]
            exact hrest front key rest rfl
      · intro h
        have hsame : genericSegment arrays above segment = segment := by
          refine genericSegment_eq_iff.mpr ?_
          have := h [] segment segments rfl
          rwa [List.append_nil] at this
        rw [hsame, List.append_cons above segment segments]
        refine ih.mpr fun front key rest he => ?_
        have := h (segment :: front) key rest (by rw [he, List.cons_append])
        rwa [List.append_cons above segment front] at this

/-- A written pointer is generic if and only if no segment of it is a list position. -/
theorem toGeneric_eq_iff : toGeneric arrays (ofSegments segments) = ofSegments segments ↔
    ∀ front key rest, segments = front ++ key :: rest → ¬ListPosition arrays front key := by
  rw [toGeneric_ofSegments, ofSegments_injective.eq_iff]
  have hfront : genericSegments arrays [] segments = [] ++ segments ↔ _ := genericSegments_eq_iff
  simpa only [List.nil_append] using hfront

/-! ## The generic form of a pointer -/

theorem segments?_toGeneric (arrays : ArrayTable) (text : String) :
    segments? (toGeneric arrays text) = (segments? text).map (genericSegments arrays []) := by
  unfold toGeneric
  cases h : segments? text with
  | none => exact h
  | some segments => exact segments?_ofSegments _

/-- What stands at the place of a segment in the generic form of a pointer. -/
theorem genericSegments_at (arrays : ArrayTable) (front : List String) (key : String)
    (rest : List String) :
    (genericSegments arrays [] (front ++ key :: rest))[front.length]? =
      some (genericSegment arrays (genericSegments arrays [] front) key) := by
  have hlength : (genericSegments arrays [] front).length = front.length := by
    rw [length_genericSegments, List.length_nil, Nat.zero_add]
  obtain ⟨more, hmore⟩ := prefix_genericSegments arrays
    (genericSegments arrays [] front ++
      [genericSegment arrays (genericSegments arrays [] front) key])
    rest
  rw [genericSegments_append, genericSegments, ← hmore, List.append_assoc, List.singleton_append,
    ← hlength, List.getElem?_append_right (Nat.le_refl _), Nat.sub_self]
  rfl

/-- **The generic form of a pointer is settled from the top down.**  It is generic itself, and has
as many segments; the generic form of what stands in front of a place is the beginning of the whole;
and a segment gives way to the wildcard if and only if it is a number that is none of the fixed
positions of an array, the one with the generic form of the segments in front. -/
theorem genericForm_stable (arrays : ArrayTable) :
    (∀ text, toGeneric arrays (toGeneric arrays text) = toGeneric arrays text) ∧
    (∀ text, (segments? (toGeneric arrays text)).map List.length =
      (segments? text).map List.length) ∧
    (∀ a b, ∃ front whole, segments? (toGeneric arrays (ofSegments a)) = some front ∧
      segments? (toGeneric arrays (ofSegments (a ++ b))) = some whole ∧ front <+: whole) ∧
    ∀ front key rest, ∃ whole,
      segments? (toGeneric arrays (ofSegments (front ++ key :: rest))) = some whole ∧
      (whole[front.length]? = some key ∨ whole[front.length]? = some wildcard) ∧
      (whole[front.length]? ≠ some key ↔ ∃ index fixed, index? key = some index ∧
        Table.get? arrays (toGeneric arrays (ofSegments front)) = some fixed ∧ fixed ≤ index) := by
  have hsegments : ∀ segments, segments? (toGeneric arrays (ofSegments segments)) =
      some (genericSegments arrays [] segments) := by
    intro segments
    rw [toGeneric_ofSegments, segments?_ofSegments]
  refine ⟨toGeneric_idem arrays, ?_, ?_, ?_⟩
  · intro text
    rw [segments?_toGeneric, Option.map_map]
    refine congrArg (Option.map · (segments? text)) (funext fun segments => ?_)
    rw [Function.comp_apply, length_genericSegments, List.length_nil, Nat.zero_add]
  · intro a b
    refine ⟨_, _, hsegments a, hsegments (a ++ b), ?_⟩
    rw [genericSegments_append]
    exact prefix_genericSegments arrays _ b
  · intro front key rest
    refine ⟨_, hsegments _, ?_⟩
    rw [genericSegments_at, toGeneric_ofSegments]
    simp only [Option.some_inj, ne_eq]
    refine ⟨(genericSegment_cases arrays _ key).symm, ?_⟩
    rw [genericSegment_eq_iff, not_not]
    exact Iff.rfl

/-- The items of a list in a list are looked up under the wildcard of the outer one. -/
example : toGeneric [("/rows", 0), ("/rows/-", 1)] "/rows/2/3" = "/rows/-/-" ∧
    toGeneric [("/rows", 0), ("/rows/-", 1)] "/rows/2/0" = "/rows/-/0" := by decide

end Pointer

end SchemaForm
