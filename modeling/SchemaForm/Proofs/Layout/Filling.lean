/-
Arrays that are filled up.

The fixed positions of an array are made first; then it is filled up with copies of the
stored template until it has as many items as its bounds count for the data, and it gets a
control that adds one where it may still have more (`buildArray_fills`).  So it never has
more items than the bounds allow that it is built with (`length_buildArray_le`).
-/
import SchemaForm.Proofs.Layout.Run

namespace SchemaForm

open Build

/-! ## Numbers -/

namespace ArrayBounds

theorem fit_tupleItems_le (k : Counting) (maxItems minItems tuple list : Nat) :
    (fit k maxItems minItems tuple list).tupleItems ≤
      (fit k maxItems minItems tuple list).maxItems := by
  unfold fit
  split
  · exact Nat.le_refl _
  · next hmax =>
      have hle : tuple ≤ maxItems := Nat.le_of_not_lt hmax
      split
      · exact hle
      · split <;> exact hle

theorem instanceCount_le (k : Counting) (b : ArrayBounds) (existing : Nat) :
    b.instanceCount k existing ≤ b.maxItems :=
  Nat.min_le_right _ _

/-- The fixed positions are counted, unless the sum is too large for a word. -/
theorem tupleItems_le_instanceCount {b : ArrayBounds}
    (hsum : b.tupleItems + b.listItems < Number.wordLimit) (hmax : b.tupleItems ≤ b.maxItems)
    (existing : Nat) : b.tupleItems ≤ b.instanceCount .words existing := by
  rw [instanceCount, Counting.add_words hsum]
  refine Nat.le_min.mpr ⟨?_, hmax⟩
  exact Nat.le_trans (Nat.le_add_right _ _) (Nat.le_max_left _ _)

end ArrayBounds

/-! ## Lengths of runs -/

namespace Build

variable {α β : Type} {p q : Progress}

theorem length_mapM {f : α → Build β} {xs : List α} {ys : List β}
    (h : (xs.mapM f).Runs p ys q) : ys.length = xs.length := by
  induction xs generalizing p ys with
  | nil =>
      rw [List.mapM_nil, runs_pure] at h
      rw [h.1]
      rfl
  | cons x xs ih =>
      simp only [List.mapM_cons, runs_bind, runs_pure] at h
      obtain ⟨y, r, -, ys, s, hys, rfl, rfl⟩ := h
      rw [List.length_cons, List.length_cons, ih hys]

theorem length_copies {t : Template} {site : Site} {count : Nat} {made : List Node}
    (h : (copies t site count).Runs p made q) : made.length = count := by
  induction count generalizing p made with
  | zero =>
      obtain ⟨rfl, -⟩ := runs_pure.mp h
      rfl
  | succ count ih =>
      obtain ⟨first, r, rest, -, hr, rfl⟩ := runs_copies_succ.mp h
      rw [List.length_cons, ih hr]

end Build

namespace Generate

variable {ctx : Setup} {build : Builder} {r : Request} {p q : Progress} {site : ArraySite}
  {schema : Json} {c : Control} {bounds : ArrayBounds} {items made : List Node} {n : Node}

theorem length_buildTuple {removable : Bool}
    (h : (buildTuple build r site schema bounds removable).Runs p made q) :
    made.length ≤ bounds.tupleItems := by
  rcases runs_buildTuple h with ⟨rfl, -⟩ | ⟨tuple, parts, -, hm, rfl⟩
  · exact Nat.zero_le _
  · calc (parts.filterMap id).length ≤ parts.length := List.length_filterMap_le _ _
      _ = min bounds.tupleItems tuple.length := by rw [length_mapM hm, List.length_range]
      _ ≤ bounds.tupleItems := Nat.min_le_left _ _

/-- Without a template nothing is filled up. -/
theorem length_fillItems {name : String} {at' : Site} {count : Nat}
    (h : (fillItems name at' count items).Runs p made q) :
    q.templates = p.templates ∧
      made.length = if (p.templates.template? name).isSome then max items.length count
        else items.length := by
  simp only [fillItems, runs_bind, runs_get] at h
  obtain ⟨_, _, ⟨rfl, rfl⟩, h⟩ := h
  split at h
  · next t ht =>
      simp only [runs_bind, runs_pure] at h
      obtain ⟨more, s, hm, rfl, rfl⟩ := h
      obtain ⟨⟨last, rfl⟩, -⟩ := runs_copies hm
      refine ⟨rfl, ?_⟩
      rw [ht, Option.isSome_some, if_pos rfl, List.length_append, length_copies hm]
      omega
  · next ht =>
      obtain ⟨rfl, rfl⟩ := runs_pure.mp h
      exact ⟨rfl, by simp only [ht, Option.isSome_none, Bool.false_eq_true, if_false]⟩

@[simp] theorem length_limitLast (bounds : ArrayBounds) (items : List Node) :
    (limitLast bounds items).length = items.length := by
  unfold limitLast
  split
  · next last hlast =>
      split
      · have hne : items ≠ [] := by
          rintro rfl
          cases hlast
        have hpos : 0 < items.length := List.length_pos_iff.mpr hne
        rw [List.length_append, List.length_dropLast, List.length_singleton]
        omega
      · rfl
  · rfl

/-- What an array has after its items: a control that adds one, exactly where one may be
added and there is room; else its limits are told to its last item. -/
def Closes (ctx : Setup) (site : ArraySite) (c : Control) (bounds : ArrayBounds)
    (items made : List Node) : Prop :=
  if c.flag "addable" true = true ∧ items.length < bounds.maxItems then
    ∃ label id, made = items ++ [addControl ctx c site.name site.relative label bounds id]
  else made = limitLast bounds items

theorem withAddControl_closes
    (h : (withAddControl ctx site schema c bounds items).Runs p made q) :
    q.templates = p.templates ∧ Closes ctx site c bounds items made := by
  have hcond : (c.flag "addable" true && decide (items.length < bounds.maxItems)) = true ↔
      c.flag "addable" true = true ∧ items.length < bounds.maxItems := by
    rw [Bool.and_eq_true, decide_eq_true_iff]
  simp only [withAddControl] at h
  split at h
  · next hadds =>
      simp only [runs_bind, runs_get, runs_newId, runs_pure] at h
      obtain ⟨_, _, ⟨rfl, rfl⟩, _, _, ⟨rfl, rfl⟩, rfl, rfl⟩ := h
      refine ⟨rfl, ?_⟩
      rw [Closes, if_pos (hcond.mp hadds)]
      exact ⟨_, _, rfl⟩
  · next hadds =>
      obtain ⟨rfl, rfl⟩ := runs_pure.mp h
      refine ⟨rfl, ?_⟩
      rw [Closes, if_neg fun hboth => hadds (hcond.mpr hboth)]

theorem Closes.length_le (h : Closes ctx site c bounds items made)
    (hitems : items.length ≤ bounds.maxItems) : made.length ≤ bounds.maxItems := by
  unfold Closes at h
  split at h
  · next hadds =>
      obtain ⟨label, id, rfl⟩ := h
      rw [List.length_append, List.length_singleton]
      exact hadds.2
  · rw [h, length_limitLast]
    exact hitems

/-- The number of values that there are for an array; a template is made for none. -/
def existingValues (ctx : Setup) (r : Request) : Nat :=
  if r.inTemplate then 0 else ctx.dataLength r.dataPointer

theorem buildList_fills {keyword : String} (hsite : site.array = r.dataPointer)
    (h : (buildList ctx build r site schema c bounds keyword items).Runs p made q) :
    ∃ filled,
      (filled.length = if (q.templates.template? site.name).isSome
        then max items.length (bounds.instanceCount .words (existingValues ctx r))
        else items.length) ∧
      Closes ctx site c bounds filled made := by
  simp only [buildList, runs_bind] at h
  obtain ⟨u, s, -, filled, s', hfill, hadd⟩ := h
  obtain ⟨hkept, hlength⟩ := length_fillItems hfill
  obtain ⟨hkept', hcloses⟩ := withAddControl_closes hadd
  refine ⟨filled, ?_, hcloses⟩
  rw [hkept', hkept, hlength, hsite]
  rfl

/-- The items of an array whose item template is stored in the end: first what was made of
the fixed positions, then copies up to the count; and after them what closes the array.
Where the positions can be counted in a word there are as many as are counted. -/
structure FilledUp (ctx : Setup) (r : Request) (schema : Json) (c : Control) (n : Node) : Prop where
  control : n.control = boundedControl ctx r schema c
  items : ∃ fixed items, fixed ≤ (boundsFor ctx r schema c).tupleItems ∧
    items.length =
      max fixed ((boundsFor ctx r schema c).instanceCount .words (existingValues ctx r)) ∧
    ((boundsFor ctx r schema c).tupleItems + (boundsFor ctx r schema c).listItems <
        Number.wordLimit →
      items.length = (boundsFor ctx r schema c).instanceCount .words (existingValues ctx r)) ∧
    Closes ctx (arraySite ctx r c) (boundedControl ctx r schema c) (boundsFor ctx r schema c)
      items n.items

theorem boundsFor_tupleItems_le (ctx : Setup) (r : Request) (schema : Json) (c : Control) :
    (boundsFor ctx r schema c).tupleItems ≤ (boundsFor ctx r schema c).maxItems :=
  ArrayBounds.fit_tupleItems_le _ _ _ _ _

/-- **Items.**  An array is filled up to the count that its bounds give. -/
theorem buildArray_fills {keyword : String} {t : Template}
    (h : (buildArray ctx build r schema c).Runs p n q)
    (hkeyword : listKeyword? schema = some keyword)
    (ht : q.templates.template? (ctx.dataKey (Pointer.anyItem r.fullPointer)) = some t) :
    FilledUp ctx r schema c n := by
  obtain ⟨site, items, made, s, hsite, htuple, rfl, s', rfl, h⟩ := runs_buildArray h
  rcases h with ⟨hnone, -, -⟩ | ⟨keyword', -, hl⟩
  · exact absurd (hkeyword.symm.trans hnone) (Option.some_ne_none _)
  · obtain ⟨filled, hlength, hcloses⟩ := buildList_fills (by rw [hsite]; rfl) hl
    have hstored : (q.templates.template? site.name).isSome = true := by
      rw [hsite]
      exact Option.isSome_iff_exists.mpr ⟨t, ht⟩
    rw [if_pos hstored] at hlength
    have hfixed := length_buildTuple htuple
    refine ⟨rfl, items.length, filled, hfixed, hlength, fun hsum => ?_, ?_⟩
    · have hcounted := ArrayBounds.tupleItems_le_instanceCount hsum
        (boundsFor_tupleItems_le ctx r schema c) (existingValues ctx r)
      rw [hlength, Nat.max_eq_right (Nat.le_trans hfixed hcounted)]
    · rw [hsite] at hcloses
      exact hcloses

/-- No array has more items than its bounds allow, what closes it included. -/
theorem length_buildArray_le (h : (buildArray ctx build r schema c).Runs p n q) :
    n.items.length ≤ (boundsFor ctx r schema c).maxItems := by
  obtain ⟨site, items, made, s, hsite, htuple, rfl, s', rfl, h⟩ := runs_buildArray h
  have hitems : items.length ≤ (boundsFor ctx r schema c).maxItems :=
    Nat.le_trans (length_buildTuple htuple) (boundsFor_tupleItems_le ctx r schema c)
  rcases h with ⟨-, rfl, -⟩ | ⟨keyword, -, hl⟩
  · exact hitems
  · obtain ⟨filled, hlength, hcloses⟩ := buildList_fills (by rw [hsite]; rfl) hl
    refine hcloses.length_le ?_
    rw [hlength]
    split
    · exact Nat.max_le.mpr ⟨hitems, ArrayBounds.instanceCount_le _ _ _⟩
    · exact hitems

end Generate

end SchemaForm
