/-
Shortening a pointer from the top down.

Rules that fold recursion stand apart when none is for a place at or below the place of another
and no array is on record there (`Pointer.Apart`).  Then they do not compete, and the shallowest
equivalent of a pointer is found in one pass over its segments (`Pointer.shorten_ofSegments`): each
segment is written in its generic form below what has been found so far, and a place that a rule
is for is left for the place above it (`climb`).  So what is below two pointers with the same
shallowest equivalent has the same one again.
-/
import SchemaForm.Proofs.Reference.NormalForm

namespace SchemaForm

namespace Pointer

variable {rules : FoldRules} {arrays : ArrayTable} {place source target rest : List String}
  {key : String}

/-! ## Rules that stand apart -/

/-- The rules that move pointers up are between generic pointers, and below the place that one of
them is for there is no other one and no array. -/
structure Apart (rules : FoldRules) (arrays : ArrayTable) : Prop where
  written : ∀ rule ∈ rules, isFold rule = true → RuleWritten rule
  generic : ∀ rule ∈ rules, isFold rule = true → toGeneric arrays rule.1 = rule.1
  alone : ∀ rule ∈ rules, isFold rule = true → ∀ other ∈ rules, isFold other = true →
    covers rule.1 other.1 = true → other = rule
  unrecorded : ∀ rule ∈ rules, isFold rule = true → ∀ entry ∈ arrays,
    covers rule.1 entry.1 = false

namespace Apart

variable (h : Apart rules arrays)

include h

theorem exists_moves {rule : String × String} (hm : rule ∈ rules) (hfold : isFold rule = true) :
    ∃ source target, rule = (ofSegments source, ofSegments target) ∧ Moves rules source target :=
  (h.written rule hm hfold).exists_moves hm hfold

theorem genericSegments_source (hmoves : Moves rules source target) :
    genericSegments arrays [] source = source := by
  have hgeneric := h.generic _ hmoves.1 hmoves.isFold
  rw [toGeneric_ofSegments] at hgeneric
  exact ofSegments_injective hgeneric

/-- Of the places that rules are for none is below another. -/
theorem eq_of_below {source' target' : List String} (hmoves : Moves rules source target)
    (hmoves' : Moves rules source' target') (hbelow : source <+: source') :
    source' = source ∧ target' = target := by
  have he := h.alone _ hmoves.1 hmoves.isFold _ hmoves'.1 hmoves'.isFold
    (covers_ofSegments.mpr hbelow)
  obtain ⟨hsource, htarget⟩ := Prod.mk.inj he
  exact ⟨ofSegments_injective hsource, ofSegments_injective htarget⟩

/-- Segments below the place of a rule are generic as they are. -/
theorem genericSegment_below (hmoves : Moves rules source target) (hbelow : source <+: place)
    (key : String) : genericSegment arrays place key = key := by
  unfold genericSegment
  split
  · rfl
  · split
    · next fixed hget =>
        have hcovers := h.unrecorded _ hmoves.1 hmoves.isFold _ (Table.mem_of_get? hget)
        rw [covers_ofSegments.mpr hbelow] at hcovers
        exact absurd hcovers.symm Bool.false_ne_true
    · rfl

end Apart

/-! ## One pass -/

/-- Rules between generic places stand apart if no place is below another one or has an array on
record at or below it. -/
theorem apart_of_paths (paths : List (List String × List String))
    (hgeneric : ∀ path ∈ paths, genericSegments arrays [] path.1 = path.1)
    (halone : ∀ path ∈ paths, ∀ other ∈ paths, path.1 <+: other.1 → other = path)
    (hunrecorded : ∀ path ∈ paths, ∀ entry ∈ arrays, covers (ofSegments path.1) entry.1 = false) :
    Apart (paths.map fun path => (ofSegments path.1, ofSegments path.2)) arrays := by
  refine ⟨fun rule hm _ => ?_, fun rule hm _ => ?_, fun rule hm _ other hother _ hcovers => ?_,
    fun rule hm _ => ?_⟩
  all_goals obtain ⟨path, hpath, rfl⟩ := List.mem_map.mp hm
  · exact ⟨⟨path.1, rfl⟩, path.2, rfl⟩
  · rw [toGeneric_ofSegments, hgeneric path hpath]
  · obtain ⟨otherPath, hotherPath, rfl⟩ := List.mem_map.mp hother
    rw [halone path hpath otherPath hotherPath (covers_ofSegments.mp hcovers)]
  · exact hunrecorded path hpath

/-- The place that a rule moves a place to, and the place itself where there is no rule. -/
def climb (rules : FoldRules) (place : List String) : List String :=
  match rules.find? fun rule => isFold rule && rule.1 == ofSegments place with
  | some rule => (segments? rule.2).getD place
  | none => place

/-- The segments of the shallowest equivalent, from the top down. -/
def shallowest (rules : FoldRules) (arrays : ArrayTable) (segments : List String) : List String :=
  segments.foldl (fun place key => climb rules (place ++ [genericSegment arrays place key])) []

@[simp] theorem shallowest_nil : shallowest rules arrays [] = [] := rfl

@[simp] theorem shallowest_concat (segments : List String) (key : String) :
    shallowest rules arrays (segments ++ [key]) =
      climb rules (shallowest rules arrays segments ++
        [genericSegment arrays (shallowest rules arrays segments) key]) :=
  List.foldl_concat _ _ _ _

/-- What is below two places with the same shallowest equivalent has the same one. -/
theorem shallowest_append {a b : List String}
    (h : shallowest rules arrays a = shallowest rules arrays b) (rest : List String) :
    shallowest rules arrays (a ++ rest) = shallowest rules arrays (b ++ rest) := by
  unfold shallowest at h ⊢
  rw [List.foldl_append, List.foldl_append, h]

/-- No rule is for the place or for one above it. -/
def Clear (rules : FoldRules) (place : List String) : Prop :=
  ∀ source target, Moves rules source target → ¬source <+: place

theorem Clear.of_below {below : List String} (h : Clear rules below) (hbelow : place <+: below) :
    Clear rules place :=
  fun source target hmoves hle => h source target hmoves (hle.trans hbelow)

theorem clear_nil : Clear rules [] := by
  intro source target hmoves hle
  have hlength := hmoves.length_lt
  rw [List.prefix_nil.mp hle] at hlength
  exact absurd hlength (Nat.not_lt_zero _)

theorem Apart.climb_of_moves (h : Apart rules arrays) (hmoves : Moves rules source target) :
    climb rules source = target := by
  unfold climb
  split
  · next rule hfind =>
      have hrule := List.find?_some hfind
      obtain ⟨hfold, hsource⟩ := Bool.and_eq_true_iff.mp hrule
      obtain ⟨source', target', rfl, hmoves'⟩ :=
        h.exists_moves (List.mem_of_find?_eq_some hfind) hfold
      have he : source' = source := ofSegments_injective (eq_of_beq hsource)
      obtain ⟨-, rfl⟩ := h.eq_of_below hmoves hmoves' (he ▸ List.prefix_rfl)
      rw [segments?_ofSegments, Option.getD_some]
  · next hfind =>
      have hnot := List.find?_eq_none.mp hfind _ hmoves.1
      rw [hmoves.isFold, Bool.true_and, beq_self_eq_true] at hnot
      exact absurd rfl hnot

theorem Apart.climb_of_not_moves (h : Apart rules arrays)
    (hnot : ∀ target, ¬Moves rules place target) : climb rules place = place := by
  unfold climb
  split
  · next rule hfind =>
      have hrule := List.find?_some hfind
      obtain ⟨hfold, hsource⟩ := Bool.and_eq_true_iff.mp hrule
      obtain ⟨source, target, rfl, hmoves⟩ :=
        h.exists_moves (List.mem_of_find?_eq_some hfind) hfold
      obtain rfl : source = place := ofSegments_injective (eq_of_beq hsource)
      exact absurd hmoves (hnot target)
  · rfl

theorem Clear.climb (h : Apart rules arrays) (hclear : Clear rules place) :
    climb rules place = place :=
  h.climb_of_not_moves fun target hmoves => hclear place target hmoves List.prefix_rfl

/-- Where a rule leads to no other rule leads on. -/
theorem Apart.clear_target (h : Apart rules arrays) (hmoves : Moves rules source target) :
    Clear rules target := by
  intro source' target' hmoves' hle
  obtain ⟨rfl, -⟩ := h.eq_of_below hmoves' hmoves (hle.trans hmoves.2.1)
  have hlength := hmoves.length_lt
  exact absurd hle.length_le (by omega)

/-- A place below one that no rule is for is left only by a rule of its own. -/
theorem Apart.clear_climb (h : Apart rules arrays) (hclear : Clear rules place) (key : String) :
    Clear rules (Pointer.climb rules (place ++ [key])) := by
  by_cases hmoves : ∃ target, Moves rules (place ++ [key]) target
  · obtain ⟨target, hmoves⟩ := hmoves
    rw [h.climb_of_moves hmoves]
    exact h.clear_target hmoves
  · rw [h.climb_of_not_moves fun target ht => hmoves ⟨target, ht⟩]
    intro source target ht hle
    rcases List.prefix_concat_iff.mp hle with rfl | hle
    · exact hmoves ⟨target, ht⟩
    · exact hclear source target ht hle

theorem Apart.clear_shallowest (h : Apart rules arrays) (segments : List String) :
    Clear rules (shallowest rules arrays segments) := by
  induction segments using List.reverseRecOn with
  | nil => exact clear_nil
  | append_singleton segments key ih =>
      rw [shallowest_concat]
      exact h.clear_climb ih _

theorem genericSegments_concat_eq (arrays : ArrayTable) (segments : List String) (key : String) :
    genericSegments arrays [] (segments ++ [key]) = genericSegments arrays [] segments ++
      [genericSegment arrays (genericSegments arrays [] segments) key] := by
  rw [genericSegments_append]
  rfl

/-- What is generic and below no rule is the shallowest equivalent of itself. -/
theorem Clear.shallowest (h : Apart rules arrays) (hclear : Clear rules place)
    (hgeneric : genericSegments arrays [] place = place) :
    Pointer.shallowest rules arrays place = place := by
  induction place using List.reverseRecOn with
  | nil => rfl
  | append_singleton place key ih =>
      rw [genericSegments_concat_eq] at hgeneric
      obtain ⟨habove, hkey⟩ := List.append_inj' hgeneric rfl
      rw [habove] at hkey
      have hkey : genericSegment arrays place key = key := (List.cons.inj hkey).1
      rw [shallowest_concat, ih (hclear.of_below (List.prefix_append _ _)) habove, hkey]
      exact hclear.climb h

/-- A rule leads to the shallowest equivalent of its place. -/
theorem Apart.shallowest_source (h : Apart rules arrays) (hmoves : Moves rules source target) :
    shallowest rules arrays source = target := by
  have hgeneric := h.genericSegments_source hmoves
  have hlength := hmoves.length_lt
  rcases List.eq_nil_or_concat' source with rfl | ⟨place, key, rfl⟩
  · exact absurd hlength (Nat.not_lt_zero _)
  · rw [genericSegments_concat_eq] at hgeneric
    obtain ⟨habove, hkey⟩ := List.append_inj' hgeneric rfl
    rw [habove] at hkey
    have hkey : genericSegment arrays place key = key := (List.cons.inj hkey).1
    have hclear : Clear rules place := by
      intro source' target' hmoves' hle
      obtain ⟨he, -⟩ := h.eq_of_below hmoves' hmoves (hle.trans (List.prefix_append _ _))
      have hle := hle.length_le
      rw [← he, List.length_append, List.length_singleton] at hle
      omega
    rw [shallowest_concat, hclear.shallowest h habove, hkey, h.climb_of_moves hmoves]

theorem Apart.genericSegments_target (h : Apart rules arrays) (hmoves : Moves rules source target) :
    genericSegments arrays [] target = target := by
  obtain ⟨rest, rfl⟩ := hmoves.2.1
  have hgeneric := h.genericSegments_source hmoves
  rw [genericSegments_append] at hgeneric
  have hbefore : genericSegments arrays [] target <+: target ++ rest :=
    hgeneric ▸ prefix_genericSegments arrays _ rest
  have hlength : (genericSegments arrays [] target).length = target.length := by
    rw [length_genericSegments, List.length_nil, Nat.zero_add]
  exact List.prefix_of_prefix_length_le hbefore (List.prefix_append _ _) hlength.le
    |>.eq_of_length hlength

theorem Apart.shallowest_target (h : Apart rules arrays) (hmoves : Moves rules source target) :
    shallowest rules arrays target = target :=
  (h.clear_target hmoves).shallowest h (h.genericSegments_target hmoves)

/-- The shallowest equivalent is generic. -/
theorem Apart.genericSegments_shallowest (h : Apart rules arrays) (segments : List String) :
    genericSegments arrays [] (shallowest rules arrays segments) =
      shallowest rules arrays segments := by
  induction segments using List.reverseRecOn with
  | nil => rfl
  | append_singleton segments key ih =>
      rw [shallowest_concat]
      generalize shallowest rules arrays segments = place at ih
      by_cases hmoves : ∃ target, Moves rules (place ++ [genericSegment arrays place key]) target
      · obtain ⟨target, hmoves⟩ := hmoves
        rw [h.climb_of_moves hmoves, h.genericSegments_target hmoves]
      · rw [h.climb_of_not_moves fun target ht => hmoves ⟨target, ht⟩, genericSegments_concat_eq,
          ih, genericSegment_idem]

theorem Apart.shallowest_idem (h : Apart rules arrays) (segments : List String) :
    shallowest rules arrays (shallowest rules arrays segments) =
      shallowest rules arrays segments :=
  (h.clear_shallowest segments).shallowest h (h.genericSegments_shallowest segments)

/-- A move up keeps the shallowest equivalent. -/
theorem Apart.shallowest_moved (h : Apart rules arrays) (hmoves : Moves rules source target)
    (rest : List String) :
    shallowest rules arrays (source ++ rest) = shallowest rules arrays (target ++ rest) :=
  shallowest_append ((h.shallowest_source hmoves).trans (h.shallowest_target hmoves).symm) rest

/-- The generic form has the same shallowest equivalent. -/
theorem Apart.shallowest_generic (h : Apart rules arrays) (segments : List String) :
    shallowest rules arrays (genericSegments arrays [] segments) =
      shallowest rules arrays segments := by
  induction segments using List.reverseRecOn with
  | nil => rfl
  | append_singleton segments key ih =>
      rw [genericSegments_concat_eq, shallowest_concat, shallowest_concat, ← ih]
      generalize hgeneric : genericSegments arrays [] segments = place
      have hplace : genericSegments arrays [] place = place := by
        rw [← hgeneric]
        exact genericSegments_of_generic (List.nil_append _).symm
      by_cases hclear : Clear rules place
      · rw [hclear.shallowest h hplace, genericSegment_idem]
      · simp only [Clear, not_forall, not_not] at hclear
        obtain ⟨source, target, hmoves, hbelow⟩ := hclear
        rw [h.genericSegment_below hmoves hbelow]

/-- **One pass is enough.** -/
theorem Apart.shorten_ofSegments (h : Apart rules arrays) (segments : List String) :
    shorten rules arrays (ofSegments segments) = ofSegments (shallowest rules arrays segments) := by
  let Reached (p : String) : Prop := ∃ place, p = ofSegments place ∧
    genericSegments arrays [] place = place ∧
    shallowest rules arrays place = shallowest rules arrays segments
  have hgeneric : ∀ place, genericSegments arrays [] (genericSegments arrays [] place) =
      genericSegments arrays [] place :=
    fun place => genericSegments_of_generic (List.nil_append _).symm
  have hreached : Reached (shorten rules arrays (ofSegments segments)) := by
    refine foldAll_induction ?_ ⟨_, toGeneric_ofSegments arrays segments, hgeneric segments,
      h.shallowest_generic segments⟩
    rintro rule hm hfold p ⟨place, rfl, -, hplace⟩ hcovers
    obtain ⟨source, target, rfl, hmoves⟩ := h.exists_moves hm hfold
    obtain ⟨rest, rfl⟩ := covers_ofSegments.mp hcovers
    refine ⟨genericSegments arrays [] (target ++ rest), ?_, hgeneric _, ?_⟩
    · rw [moved, after_ofSegments, ← ofSegments_append, toGeneric_ofSegments]
    · rw [h.shallowest_generic, ← h.shallowest_moved hmoves, hplace]
  obtain ⟨place, hplace, hplaceGeneric, hsame⟩ := hreached
  have hwritten : Written (toGeneric arrays (ofSegments segments)) :=
    ⟨_, toGeneric_ofSegments arrays segments⟩
  have hclear : Clear rules place := by
    intro source target hmoves hle
    have hcovers := (foldAll_reduces arrays h.written hwritten).clear _ hmoves.1 hmoves.isFold
    rw [← shorten, hplace, covers_ofSegments.mpr hle] at hcovers
    exact absurd hcovers.symm Bool.false_ne_true
  rw [hplace, ← hsame, hclear.shallowest h hplaceGeneric]

/-- A text is shortened as it is read. -/
theorem Apart.shorten_of_segments? (h : Apart rules arrays) {pointer : String}
    {segments : List String} (hp : segments? pointer = some segments) :
    shorten rules arrays pointer = ofSegments (shallowest rules arrays segments) := by
  have hsame : toGeneric arrays pointer = toGeneric arrays (ofSegments segments) := by
    rw [toGeneric_ofSegments, toGeneric, hp]
  rw [shorten, hsame, ← shorten, h.shorten_ofSegments]

/-- What is no pointer stays as it is. -/
theorem Apart.shorten_of_none (h : Apart rules arrays) {pointer : String}
    (hp : segments? pointer = none) : shorten rules arrays pointer = pointer := by
  have hsame : toGeneric arrays pointer = pointer := by rw [toGeneric, hp]
  rw [shorten, hsame]
  refine foldAll_induction (P := (· = pointer)) (fun rule hm hfold p he hcovers => ?_) rfl
  subst he
  exact absurd hp (segments?_of_covered (h.written rule hm hfold) hfold hcovers)

end Pointer

end SchemaForm
