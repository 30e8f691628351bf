/-
The normal form of a pointer.

The rules that fold recursion are used in passes.  A pass uses each rule that moves pointers up for
as long as it covers the pointer, and the passes go on until one of them moves nothing
(`Pointer.Reduces`).  Between written pointers every move leaves fewer segments (`moved_shorter`),
so that the passes come to an end, and `Pointer.shorten` gives what they come to.  It is a normal
form: generic, and covered by no rule that moves pointers up (`shorten_normalForm`).
-/
import SchemaForm.Proofs.Reference.Folds

namespace SchemaForm

namespace Pointer

variable {rules : FoldRules} {arrays : ArrayTable} {rule : String × String}
  {source target segments : List String} {pointer p q r : String} {b : Bool}

/-! ## Rules that move pointers up -/

/-- A rule for the source moves pointers up to the target. -/
def Moves (rules : FoldRules) (source target : List String) : Prop :=
  (ofSegments source, ofSegments target) ∈ rules ∧ target <+: source ∧ target ≠ source

theorem isFold_ofSegments :
    isFold (ofSegments source, ofSegments target) = true ↔
      target <+: source ∧ target ≠ source := by
  rw [isFold, Bool.and_eq_true, covers_ofSegments, bne_iff_ne, and_comm]
  exact and_congr_right fun _ => not_congr
    ⟨fun h => (ofSegments_injective h).symm, fun h => congrArg ofSegments h.symm⟩

theorem Moves.isFold (h : Moves rules source target) :
    Pointer.isFold (ofSegments source, ofSegments target) = true :=
  isFold_ofSegments.mpr h.2

theorem Moves.length_lt (h : Moves rules source target) : target.length < source.length := by
  obtain ⟨-, hle, hne⟩ := h
  exact lt_of_le_of_ne hle.length_le fun he => hne (hle.eq_of_length he)

/-- A written rule that moves pointers up moves segments up. -/
theorem RuleWritten.exists_moves {rule : String × String} (hrule : RuleWritten rule)
    (hm : rule ∈ rules) (hfold : Pointer.isFold rule = true) : ∃ source target,
      rule = (ofSegments source, ofSegments target) ∧ Moves rules source target := by
  obtain ⟨⟨source, hsource⟩, target, htarget⟩ := hrule
  obtain rfl : rule = (ofSegments source, ofSegments target) := Prod.ext hsource htarget
  exact ⟨source, target, rfl, hm, isFold_ofSegments.mp hfold⟩

/-! ## Moves make pointers shorter -/

theorem length_le_escapeChars (cs : List Char) : cs.length ≤ (escapeChars cs).length := by
  induction cs with
  | nil => exact Nat.le_refl _
  | cons c rest ih =>
      simp only [escapeChars]
      split
      · simp only [List.length_cons]
        omega
      · split
        · simp only [List.length_cons]
          omega
        · simp only [List.length_cons]
          omega

theorem length_genericSegment (arrays : ArrayTable) (above : List String) (segment : String) :
    (escapeChars (genericSegment arrays above segment).toList).length ≤
      (escapeChars segment.toList).length := by
  unfold genericSegment
  split
  · exact Nat.le_refl _
  · next index hindex =>
      split
      · split
        · -- A segment that is read as a position is not empty.
          have hne : segment.toList ≠ [] := by
            intro hnil
            rw [index?, hnil] at hindex
            cases hindex
          have hwildcard : (escapeChars wildcard.toList).length = 1 := rfl
          have hpos := List.length_pos_of_ne_nil hne
          have hle := length_le_escapeChars segment.toList
          omega
        · exact Nat.le_refl _
      · exact Nat.le_refl _

theorem length_ofSegments_cons (segment : String) (rest : List String) :
    (ofSegments (segment :: rest)).length =
      1 + (escapeChars segment.toList).length + (ofSegments rest).length := by
  rw [← String.length_toList, ← String.length_toList, toList_ofSegments, toList_ofSegments,
    List.flatMap_cons, List.length_append, List.length_cons]
  omega

theorem length_ofSegments_generic (arrays : ArrayTable) (above segments : List String) :
    (ofSegments (genericSegments arrays above segments)).length ≤
      (ofSegments above).length + (ofSegments segments).length := by
  induction segments generalizing above with
  | nil => exact Nat.le_add_right _ _
  | cons segment rest ih =>
      have hsegment := length_genericSegment arrays above segment
      have hnil : (ofSegments []).length = 0 := rfl
      refine (ih _).trans ?_
      rw [ofSegments_append, String.length_append, length_ofSegments_cons, length_ofSegments_cons,
        hnil]
      omega

/-- A rule that moves pointers up leaves a written pointer with fewer segments, and a shorter
text. -/
theorem moved_shorter (arrays : ArrayTable) (hrule : RuleWritten rule) (hfold : isFold rule = true)
    (hcovers : covers rule.1 (ofSegments segments) = true) :
    ∃ fewer, moved arrays rule (ofSegments segments) = ofSegments fewer ∧
      fewer.length < segments.length ∧
      (ofSegments fewer).length < (ofSegments segments).length := by
  obtain ⟨source, target, rfl, -, ⟨below, rfl⟩, hne⟩ :=
    hrule.exists_moves (List.mem_singleton_self rule) hfold
  obtain ⟨rest, rfl⟩ := covers_ofSegments.mp hcovers
  cases below with
  | nil => exact absurd (List.append_nil target).symm hne
  | cons key below =>
      refine ⟨genericSegments arrays [] (target ++ rest), ?_, ?_, ?_⟩
      · rw [moved, after_ofSegments, ← ofSegments_append, toGeneric_ofSegments]
      · simp only [length_genericSegments, List.length_append, List.length_cons, List.length_nil]
        omega
      · have hgeneric := length_ofSegments_generic arrays [] (target ++ rest)
        have hnil : (ofSegments []).length = 0 := rfl
        simp only [ofSegments_append, String.length_append, length_ofSegments_cons] at hgeneric ⊢
        omega

theorem length_moved (hrule : RuleWritten rule) (hfold : isFold rule = true) (hp : Written p)
    (hcovers : covers rule.1 p = true) : (moved arrays rule p).length < p.length := by
  obtain ⟨segments, rfl⟩ := hp
  obtain ⟨fewer, he, -, hlt⟩ := moved_shorter arrays hrule hfold hcovers
  rwa [he]

/-! ## Passes -/

/-- One pass of the rules over a pointer: each rule that moves pointers up is used for as long as
it covers the pointer.  The flag tells whether any rule was used. -/
inductive Passes (arrays : ArrayTable) : FoldRules → String → Bool → String → Prop
  | done {p : String} : Passes arrays [] p false p
  | other {rule : String × String} {rest : FoldRules} {p q : String} {b : Bool} :
      isFold rule = false → Passes arrays rest p b q → Passes arrays (rule :: rest) p b q
  | leave {rule : String × String} {rest : FoldRules} {p q : String} {b : Bool} :
      isFold rule = true → covers rule.1 p = false → Passes arrays rest p b q →
      Passes arrays (rule :: rest) p b q
  | move {rule : String × String} {rest : FoldRules} {p q : String} {b : Bool} :
      isFold rule = true → covers rule.1 p = true →
      Passes arrays (rule :: rest) (moved arrays rule p) b q →
      Passes arrays (rule :: rest) p true q

/-- Passes until one of them uses no rule, without a bound on their number or on the moves. -/
inductive Reduces (rules : FoldRules) (arrays : ArrayTable) : String → String → Prop
  | done {p q : String} : Passes arrays rules p false q → Reduces rules arrays p q
  | again {p q r : String} : Passes arrays rules p true q → Reduces rules arrays q r →
      Reduces rules arrays p r

/-- A pass comes to one end only. -/
theorem Passes.unique {b' : Bool} {q' : String} (h : Passes arrays rules p b q)
    (h' : Passes arrays rules p b' q') : b = b' ∧ q = q' := by
  induction h generalizing b' q' with
  | done =>
      cases h'
      exact ⟨rfl, rfl⟩
  | other hother _ ih =>
      cases h' with
      | other _ h' => exact ih h'
      | leave hfold _ _ => exact absurd (hother.symm.trans hfold) Bool.false_ne_true
      | move hfold _ _ => exact absurd (hother.symm.trans hfold) Bool.false_ne_true
  | leave hfold hleave _ ih =>
      cases h' with
      | other hother _ => exact absurd (hother.symm.trans hfold) Bool.false_ne_true
      | leave _ _ h' => exact ih h'
      | move _ hcovers _ => exact absurd (hleave.symm.trans hcovers) Bool.false_ne_true
  | move hfold hcovers _ ih =>
      cases h' with
      | other hother _ => exact absurd (hother.symm.trans hfold) Bool.false_ne_true
      | leave _ hleave _ => exact absurd (hleave.symm.trans hcovers) Bool.false_ne_true
      | move _ _ h' => exact ⟨rfl, (ih h').2⟩

/-- The passes come to one end only. -/
theorem Reduces.unique {r' : String} (h : Reduces rules arrays p r)
    (h' : Reduces rules arrays p r') : r = r' := by
  induction h with
  | done hpass =>
      cases h' with
      | done hpass' => exact (hpass.unique hpass').2
      | again hpass' _ => exact absurd (hpass.unique hpass').1 Bool.false_ne_true
  | again hpass _ ih =>
      cases h' with
      | done hpass' => exact absurd (hpass.unique hpass').1.symm Bool.false_ne_true
      | again hpass' hrest =>
          obtain ⟨-, rfl⟩ := hpass.unique hpass'
          exact ih hrest

/-- A pass that uses no rule leaves the pointer as it is, and there is no rule to use. -/
theorem Passes.idle (h : Passes arrays rules p b q) (hb : b = false) :
    q = p ∧ ∀ rule ∈ rules, isFold rule = true → covers rule.1 p = false := by
  induction h with
  | done => exact ⟨rfl, fun rule hm => absurd hm List.not_mem_nil⟩
  | other hother _ ih =>
      obtain ⟨he, hrest⟩ := ih hb
      refine ⟨he, List.forall_mem_cons.mpr ⟨fun hfold => ?_, hrest⟩⟩
      exact absurd (hother.symm.trans hfold) Bool.false_ne_true
  | leave _ hleave _ ih =>
      obtain ⟨he, hrest⟩ := ih hb
      exact ⟨he, List.forall_mem_cons.mpr ⟨fun _ => hleave, hrest⟩⟩
  | move _ _ _ _ => exact absurd hb.symm Bool.false_ne_true

/-- Where the passes end there is no rule to use. -/
theorem Reduces.clear (h : Reduces rules arrays p r) :
    ∀ rule ∈ rules, isFold rule = true → covers rule.1 r = false := by
  induction h with
  | done hpass =>
      obtain ⟨rfl, hclear⟩ := hpass.idle rfl
      exact hclear
  | again _ _ ih => exact ih

/-! ## Shortening comes to where the passes end -/

/-- What a rule is used up on stays written, and the rest of the pass goes on from there. -/
theorem foldBy_passes {rest : FoldRules} (hrule : RuleWritten rule) (hfold : isFold rule = true)
    (hp : Written p) (hrest : Passes arrays rest (foldBy arrays rule p) b q) :
    ∃ b', Passes arrays (rule :: rest) p b' q ∧ (foldBy arrays rule p).length ≤ p.length ∧
      (b' = true → b = true ∨ (foldBy arrays rule p).length < p.length) := by
  induction p using foldBy.induct arrays rule with
  | case1 p hcovers hshorter ih =>
      rw [foldBy, if_pos hcovers, if_pos hshorter] at hrest ⊢
      obtain ⟨b', hpass, hle, -⟩ := ih (moved_written hrule hp hcovers) hrest
      exact ⟨true, .move hfold hcovers hpass, by omega, fun _ => .inr (by omega)⟩
  | case2 p hcovers hshorter => exact absurd (length_moved hrule hfold hp hcovers) hshorter
  | case3 p hcovers =>
      rw [foldBy, if_neg hcovers] at hrest ⊢
      exact ⟨b, .leave hfold (Bool.not_eq_true _ ▸ hcovers) hrest, Nat.le_refl _, .inl⟩

theorem foldBy_written (hrule : RuleWritten rule) (hp : Written p) :
    Written (foldBy arrays rule p) :=
  foldBy_induction (fun _ hp hcovers => moved_written hrule hp hcovers) hp

/-- Using every rule in turn is a pass, and it makes the text shorter if it uses any rule. -/
theorem foldOnce_passes (arrays : ArrayTable)
    (hrules : ∀ rule ∈ rules, isFold rule = true → RuleWritten rule) (hp : Written p) :
    ∃ b, Passes arrays rules p b (foldOnce rules arrays p) ∧
      (foldOnce rules arrays p).length ≤ p.length ∧
      (b = true → (foldOnce rules arrays p).length < p.length) := by
  induction rules generalizing p with
  | nil => exact ⟨false, .done, Nat.le_refl _, fun h => absurd h Bool.false_ne_true⟩
  | cons rule rest ih =>
      obtain ⟨hrule, hrest⟩ := List.forall_mem_cons.mp hrules
      cases hfold : isFold rule with
      | false =>
          have he : foldOnce (rule :: rest) arrays p = foldOnce rest arrays p := by
            rw [foldOnce, List.filter_cons_of_neg (by rw [hfold]; exact Bool.false_ne_true),
              foldOnce]
          obtain ⟨b, hpass, hle, hlt⟩ := ih hrest hp
          rw [he]
          exact ⟨b, .other hfold hpass, hle, hlt⟩
      | true =>
          have he : foldOnce (rule :: rest) arrays p =
              foldOnce rest arrays (foldBy arrays rule p) := by
            rw [foldOnce, List.filter_cons_of_pos hfold, List.foldl_cons, foldOnce]
          obtain ⟨b, hpass, hle, hlt⟩ := ih hrest (foldBy_written (hrule hfold) hp)
          obtain ⟨b', hpass', hle', hlt'⟩ := foldBy_passes (hrule hfold) hfold hp hpass
          rw [he]
          refine ⟨b', hpass', hle.trans hle', fun hb => ?_⟩
          rcases hlt' hb with hb | hshorter
          · exact Nat.lt_of_lt_of_le (hlt hb) hle'
          · exact Nat.lt_of_le_of_lt hle hshorter

theorem foldOnce_written (hrules : ∀ rule ∈ rules, isFold rule = true → RuleWritten rule)
    (hp : Written p) : Written (foldOnce rules arrays p) :=
  foldOnce_induction (fun rule hm hfold _ hp hcovers =>
    moved_written (hrules rule hm hfold) hp hcovers) hp

/-- The rules are used for as long as the passes go on. -/
theorem foldAll_reduces (arrays : ArrayTable)
    (hrules : ∀ rule ∈ rules, isFold rule = true → RuleWritten rule) (hp : Written p) :
    Reduces rules arrays p (foldAll rules arrays p) := by
  induction p using foldAll.induct rules arrays with
  | case1 p hshorter ih =>
      rw [foldAll, if_pos hshorter]
      obtain ⟨b, hpass, -, -⟩ := foldOnce_passes arrays hrules hp
      cases b with
      | false =>
          rw [(hpass.idle rfl).1] at hshorter
          exact absurd hshorter (Nat.lt_irrefl _)
      | true => exact .again hpass (ih (foldOnce_written hrules hp))
  | case2 p hshorter =>
      rw [foldAll, if_neg hshorter]
      obtain ⟨b, hpass, -, hlt⟩ := foldOnce_passes arrays hrules hp
      cases b with
      | false =>
          rw [(hpass.idle rfl).1] at hpass
          exact .done hpass
      | true => exact absurd (hlt rfl) hshorter

/-! ## Normal forms -/

/-- A pointer in generic form that no rule that moves pointers up covers. -/
structure NormalForm (rules : FoldRules) (arrays : ArrayTable) (pointer : String) : Prop where
  generic : toGeneric arrays pointer = pointer
  clear : ∀ rule ∈ rules, isFold rule = true → covers rule.1 pointer = false

/-- A normal form is its own shallowest equivalent. -/
theorem NormalForm.shorten (h : NormalForm rules arrays pointer) :
    shorten rules arrays pointer = pointer := by
  rw [Pointer.shorten, h.generic]
  refine foldAll_induction (P := (· = pointer)) (fun rule hm hfold p he hcovers => ?_) rfl
  rw [he, h.clear rule hm hfold] at hcovers
  exact absurd hcovers Bool.false_ne_true

theorem toGeneric_of_segments? (arrays : ArrayTable) (hp : segments? pointer = some segments) :
    toGeneric arrays pointer = ofSegments (genericSegments arrays [] segments) := by
  rw [toGeneric, hp]

theorem shorten_generic (rules : FoldRules) (arrays : ArrayTable) (pointer : String) :
    toGeneric arrays (shorten rules arrays pointer) = shorten rules arrays pointer :=
  foldAll_induction (P := fun p => toGeneric arrays p = p)
    (fun _ _ _ _ _ _ => toGeneric_idem arrays _) (toGeneric_idem arrays pointer)

/-- Shortening never makes segments more. -/
theorem shorten_segments (hrules : ∀ rule ∈ rules, RuleWritten rule)
    (hp : segments? pointer = some segments) : ∃ place,
      shorten rules arrays pointer = ofSegments place ∧ place.length ≤ segments.length := by
  refine foldAll_induction (P := fun p => ∃ place, p = ofSegments place ∧
    place.length ≤ segments.length) ?_ ⟨_, toGeneric_of_segments? arrays hp, ?_⟩
  · rintro rule hm hfold p ⟨place, rfl, hle⟩ hcovers
    obtain ⟨fewer, he, hlt, -⟩ := moved_shorter arrays (hrules rule hm) hfold hcovers
    exact ⟨fewer, he, by omega⟩
  · rw [length_genericSegments, List.length_nil, Nat.zero_add]

/-- **Shortening ends in a normal form.**  For rules between written pointers the passes over the
generic form of a pointer end, in the result of `shorten` and nowhere else.  It is generic, no rule
that moves pointers up covers it, it is the same for the pointer and for its generic form, it has no
more segments than the pointer, and it is its own shallowest equivalent. -/
theorem shorten_normalForm (arrays : ArrayTable) (hrules : ∀ rule ∈ rules, RuleWritten rule)
    (hp : segments? pointer = some segments) :
    (∀ r, Reduces rules arrays (toGeneric arrays pointer) r ↔ r = shorten rules arrays pointer) ∧
      NormalForm rules arrays (shorten rules arrays pointer) ∧
      shorten rules arrays (toGeneric arrays pointer) = shorten rules arrays pointer ∧
      (∃ place, shorten rules arrays pointer = ofSegments place ∧
        place.length ≤ segments.length) ∧
      shorten rules arrays (shorten rules arrays pointer) = shorten rules arrays pointer := by
  have hreduces : Reduces rules arrays (toGeneric arrays pointer) (shorten rules arrays pointer) :=
    foldAll_reduces arrays (fun rule hm _ => hrules rule hm) ⟨_, toGeneric_of_segments? arrays hp⟩
  have hnormal : NormalForm rules arrays (shorten rules arrays pointer) :=
    ⟨shorten_generic rules arrays pointer, hreduces.clear⟩
  refine ⟨fun r => ⟨fun h => h.unique hreduces, fun h => h ▸ hreduces⟩, hnormal, ?_,
    shorten_segments hrules hp, hnormal.shorten⟩
  rw [shorten, toGeneric_idem, ← shorten]

/-- The place of a name three nodes down a tree, under a rule that folds the tree's children. -/
theorem shorten_normalForm_tree :
    let rules : FoldRules := [("/tree/children/-", "/tree")]
    let arrays : ArrayTable := [("/tree/children", 0)]
    shorten rules arrays "/tree/children/3/children/0/name" = "/tree/name" ∧
      NormalForm rules arrays "/tree/name" := by
  intro rules arrays
  have hrules : ∀ rule ∈ rules, RuleWritten rule := by
    refine List.forall_mem_singleton.mpr ⟨⟨["tree", "children", "-"], ?_⟩, ["tree"], ?_⟩ <;> decide
  have hp : segments? "/tree/children/3/children/0/name" =
      some ["tree", "children", "3", "children", "0", "name"] := by decide
  obtain ⟨hends, hnormal, -⟩ := shorten_normalForm arrays hrules hp
  have hname : shorten rules arrays "/tree/children/3/children/0/name" = "/tree/name" := by
    -- The second position is below no array on record before the first move.
    have hgeneric : toGeneric arrays "/tree/children/3/children/0/name" =
        "/tree/children/-/children/0/name" := by decide
    have hfirst : moved arrays ("/tree/children/-", "/tree") "/tree/children/-/children/0/name" =
        "/tree/children/-/name" := by decide
    have hsecond : moved arrays ("/tree/children/-", "/tree") "/tree/children/-/name" =
        "/tree/name" := by decide
    have hidle : Passes arrays rules "/tree/name" false "/tree/name" :=
      .leave (by decide) (by decide) .done
    have hrest : Passes arrays rules "/tree/children/-/name" true "/tree/name" :=
      Passes.move (b := false) (by decide) (by decide) (by rw [hsecond]; exact hidle)
    have hpass : Passes arrays rules "/tree/children/-/children/0/name" true "/tree/name" :=
      Passes.move (b := true) (by decide) (by decide) (by rw [hfirst]; exact hrest)
    refine ((hends _).mp ?_).symm
    rw [hgeneric]
    exact .again hpass (.done hidle)
  exact ⟨hname, hname ▸ hnormal⟩

end Pointer

end SchemaForm
