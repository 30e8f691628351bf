/-
Shortened pointers.

The rules that fold recursion in the data are between written pointers
(`Resolved.dataFolds_written`).  They move a written pointer to a written one, and they
leave alone what is no pointer, so that a shortened pointer is written or is the text
that it was before (`Pointer.shorten_cases`).
-/
import SchemaForm.Proofs.Pointer.Segments
import SchemaForm.Proofs.Table
import SchemaForm.Reference.Resolved

namespace SchemaForm

namespace Pointer

variable {rules : FoldRules} {arrays : ArrayTable} {rule : String × String} {pointer : String}

/-- The rule is between written pointers. -/
def RuleWritten (rule : String × String) : Prop := Written rule.1 ∧ Written rule.2

theorem moved_written (hrule : RuleWritten rule) (hp : Written pointer)
    (hcovers : covers rule.1 pointer = true) : Written (moved arrays rule pointer) := by
  obtain ⟨⟨source, hsource⟩, target, htarget⟩ := hrule
  obtain ⟨segments, rfl⟩ := hp
  rw [hsource, covers_ofSegments] at hcovers
  obtain ⟨below, rfl⟩ := hcovers
  rw [moved, hsource, htarget, after_ofSegments, ← ofSegments_append, toGeneric_ofSegments]
  exact ⟨_, rfl⟩

/-- A rule that moves pointers up covers pointers only. -/
theorem segments?_of_covered (hrule : RuleWritten rule) (hfold : isFold rule = true)
    (hcovers : covers rule.1 pointer = true) : segments? pointer ≠ none := by
  obtain ⟨⟨source, hsource⟩, target, htarget⟩ := hrule
  obtain ⟨hne, habove⟩ := Bool.and_eq_true_iff.mp hfold
  rw [hsource, htarget, covers_ofSegments] at habove
  cases source with
  | nil =>
      obtain rfl := List.prefix_nil.mp habove
      rw [hsource, htarget] at hne
      exact absurd rfl (bne_iff_ne.mp hne)
  | cons key rest =>
      obtain ⟨more, hmore, -⟩ := covers_iff.mp hcovers
      rw [hsource, unmarked_ofSegments, toList_ofSegments] at hmore
      unfold segments?
      rw [hmore]
      exact Option.some_ne_none _

/-- What a rule keeps stays when it is applied again and again. -/
theorem foldBy_induction {P : String → Prop}
    (step : ∀ p, P p → covers rule.1 p = true → P (moved arrays rule p)) (h : P pointer) :
    P (foldBy arrays rule pointer) := by
  induction pointer using foldBy.induct arrays rule with
  | case1 pointer hcovers hshorter ih =>
      rw [foldBy, if_pos hcovers, if_pos hshorter]
      exact ih (step pointer h hcovers)
  | case2 pointer hcovers hshorter =>
      rw [foldBy, if_pos hcovers, if_neg hshorter]
      exact h
  | case3 pointer hcovers =>
      rw [foldBy, if_neg hcovers]
      exact h

/-- What all rules keep stays when they are applied in turn. -/
theorem foldOnce_induction {P : String → Prop}
    (step : ∀ rule ∈ rules, isFold rule = true → ∀ p, P p → covers rule.1 p = true →
      P (moved arrays rule p)) (h : P pointer) : P (foldOnce rules arrays pointer) := by
  unfold foldOnce
  have hsub : ∀ rule ∈ rules.filter isFold, rule ∈ rules ∧ isFold rule = true :=
    fun rule hrule => List.mem_filter.mp hrule
  generalize rules.filter isFold = folds at hsub
  induction folds generalizing pointer with
  | nil => exact h
  | cons rule folds ih =>
      obtain ⟨⟨hrule, hfold⟩, hrest⟩ := List.forall_mem_cons.mp hsub
      exact ih (foldBy_induction (step rule hrule hfold) h) hrest

/-- What all rules keep stays when they are applied for as long as they may be. -/
theorem foldAll_induction {P : String → Prop}
    (step : ∀ rule ∈ rules, isFold rule = true → ∀ p, P p → covers rule.1 p = true →
      P (moved arrays rule p)) (h : P pointer) : P (foldAll rules arrays pointer) := by
  induction pointer using foldAll.induct rules arrays with
  | case1 pointer hshorter ih =>
      rw [foldAll, if_pos hshorter]
      exact ih (foldOnce_induction step h)
  | case2 pointer hshorter =>
      rw [foldAll, if_neg hshorter]
      exact h

/-- Shortening leaves a pointer as it is or makes it shorter. -/
theorem foldAll_cases (rules : FoldRules) (arrays : ArrayTable) (pointer : String) :
    foldAll rules arrays pointer = pointer ∨
      (foldAll rules arrays pointer).length < pointer.length := by
  induction pointer using foldAll.induct rules arrays with
  | case1 pointer hshorter ih =>
      rw [foldAll, if_pos hshorter]
      rcases ih with hsame | hless
      · rw [hsame]
        exact .inr hshorter
      · exact .inr (hless.trans hshorter)
  | case2 pointer hshorter =>
      rw [foldAll, if_neg hshorter]
      exact .inl rfl

theorem shorten_of_segments?_eq_none (hrules : ∀ rule ∈ rules, RuleWritten rule)
    (h : segments? pointer = none) : shorten rules arrays pointer = pointer := by
  have hsame : toGeneric arrays pointer = pointer := by rw [toGeneric, h]
  rw [shorten, hsame]
  refine foldAll_induction (P := (· = pointer)) (fun rule hrule hfold p hp hcovers => ?_) rfl
  subst hp
  exact absurd h (segments?_of_covered (hrules rule hrule) hfold hcovers)

/-- **Shortened pointers.** -/
theorem shorten_cases (hrules : ∀ rule ∈ rules, RuleWritten rule) (pointer : String) :
    Written (shorten rules arrays pointer) ∨ shorten rules arrays pointer = pointer := by
  rcases toGeneric_cases arrays pointer with hwritten | ⟨hnone, -⟩
  · refine .inl (foldAll_induction (fun rule hrule _ p hp hcovers => ?_) hwritten)
    exact moved_written (hrules rule hrule) hp hcovers
  · exact .inr (shorten_of_segments?_eq_none hrules hnone)

/-- A shortened pointer is in generic form where it is, or at or below the target of a rule. -/
theorem shorten_origin (hrules : ∀ rule ∈ rules, RuleWritten rule) (pointer : String) :
    shorten rules arrays pointer = toGeneric arrays pointer ∨
      ∃ rule ∈ rules, isFold rule = true ∧ ∃ target place, rule.2 = ofSegments target ∧
        shorten rules arrays pointer = ofSegments place ∧
        genericSegments arrays [] target <+: place := by
  rcases toGeneric_cases arrays pointer with hwritten | ⟨hnone, hsame⟩
  · refine (foldAll_induction (P := fun p => Written p ∧ (p = toGeneric arrays pointer ∨
      ∃ rule ∈ rules, isFold rule = true ∧ ∃ target place, rule.2 = ofSegments target ∧
        p = ofSegments place ∧ genericSegments arrays [] target <+: place))
      ?_ ⟨hwritten, .inl rfl⟩).2
    rintro rule hrule hfold p ⟨hp, -⟩ hcovers
    refine ⟨moved_written (hrules rule hrule) hp hcovers, .inr ⟨rule, hrule, hfold, ?_⟩⟩
    obtain ⟨⟨source, hsource⟩, target, htarget⟩ := hrules rule hrule
    obtain ⟨segments, rfl⟩ := hp
    rw [hsource, covers_ofSegments] at hcovers
    obtain ⟨below, rfl⟩ := hcovers
    refine ⟨target, genericSegments arrays [] (target ++ below), htarget, ?_, ?_⟩
    · rw [moved, hsource, htarget, after_ofSegments, ← ofSegments_append, toGeneric_ofSegments]
    · rw [genericSegments_append]
      exact prefix_genericSegments _ _ _
  · exact .inl ((shorten_of_segments?_eq_none hrules hnone).trans hsame.symm)

end Pointer

namespace Resolved

open Pointer

variable {r : Resolved} {document : Json}

theorem toDataPointer?_written {schema : Json} {schemaPointer found : String}
    (h : Schema.toDataPointer? schema schemaPointer = some found) : Written found := by
  obtain ⟨segments, -, hdata⟩ := Option.bind_eq_some_iff.mp h
  obtain ⟨path, -, rfl⟩ := Option.map_eq_some_iff.mp hdata
  exact ⟨path, rfl⟩

theorem noteReference_written (h : ∀ rule ∈ r.dataFolds, RuleWritten rule) (place : String)
    (members : Members) : ∀ rule ∈ (r.noteReference place members).dataFolds, RuleWritten rule := by
  unfold noteReference
  split
  · exact h
  · dsimp only
    split
    · next hsource htarget =>
        intro rule hrule
        rcases Table.mem_insertSorted hrule with rfl | hrule
        · exact ⟨toDataPointer?_written hsource, toDataPointer?_written htarget⟩
        · exact h rule hrule
    · exact h

theorem noteArray_dataFolds (r : Resolved) (place : String) (members : Members) :
    (r.noteArray place members).dataFolds = r.dataFolds := by
  unfold noteArray
  split
  · split <;> rfl
  · rfl

theorem dataFolds_written (h : of? document = some r) :
    ∀ rule ∈ r.dataFolds, RuleWritten rule := by
  simp only [of?, Option.bind_eq_bind, Option.bind_eq_some_iff, Option.pure_def] at h
  obtain ⟨schema, -, library, -, hr⟩ := h
  obtain rfl := Option.some.inj hr
  have hall : ∀ (objects : List (String × Members)) (r : Resolved),
      (∀ rule ∈ r.dataFolds, RuleWritten rule) →
        ∀ rule ∈ (objects.foldl note r).dataFolds, RuleWritten rule := by
    intro objects
    induction objects with
    | nil => exact fun r hr => hr
    | cons object objects ih =>
        intro r hr
        refine ih _ ?_
        rw [note, noteArray_dataFolds]
        exact noteReference_written hr _ _
  exact hall _ _ fun rule hrule => absurd hrule List.not_mem_nil

end Resolved

end SchemaForm
