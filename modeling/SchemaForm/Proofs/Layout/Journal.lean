/-
A journal of the template library.

A journal lists what is done to the library, in order, each change with the library it was made to.
It is lawful if every change was permitted where it was made: a name is reserved, or given a
template that is there already, only while it is not known; and a reservation is settled, with a
template or without one, by the call that made it, nothing having been done to the name since.

In a lawful journal a stored template is there for good (`Lawful.keeps`), and a reserved name is
changed by the call that reserved it and by no other (`Permits.of_reserved`).
-/
import Mathlib.Data.List.Induction
import SchemaForm.Proofs.Layout.Library

namespace SchemaForm

/-! ## Changes -/

/-- What is done to the template library.  A call that reserves a name goes by the number of the
changes that were made before. -/
inductive Change where
  /-- A name is reserved. -/
  | reserve (name : String)
  /-- A call settles what it has reserved: it stores a template, or releases the name. -/
  | settle (call : Nat) (name : String) (made : Option Template)
  /-- A template that is there already is stored. -/
  | offer (name : String) (t : Template)

namespace Change

/-- The name whose entry is changed. -/
def name : Change → String
  | reserve name => name
  | settle _ name _ => name
  | offer name _ => name

/-- The library after the change. -/
def apply (c : Change) (l : Library) : Library :=
  match c with
  | reserve name => l.reserve name
  | settle _ name (some t) => l.store name t
  | settle _ name none => l.remove name
  | offer name t => l.store name t

variable {c : Change} {l : Library} {other : String}

/-- A change leaves the entries of other names alone. -/
theorem get?_apply_of_ne (c : Change) (h : c.name ≠ other) :
    Table.get? (c.apply l) other = Table.get? l other := by
  cases c with
  | reserve name => exact (Table.get?_insert ..).trans (if_neg h)
  | settle call name made =>
      cases made with
      | some t => exact (Table.get?_insert ..).trans (if_neg h)
      | none => exact Table.get?_erase_of_ne h
  | offer name t => exact (Table.get?_insert ..).trans (if_neg h)

theorem nodup_apply (h : (Table.names l).Nodup) : (Table.names (c.apply l)).Nodup := by
  cases c with
  | reserve name => exact Table.nodup_insert h _ _
  | settle call name made =>
      cases made with
      | some t => exact Table.nodup_insert h _ _
      | none => exact Table.nodup_erase h _
  | offer name t => exact Table.nodup_insert h _ _

/-- Only reserving a name leaves it reserved. -/
theorem eq_reserve (hl : (Table.names l).Nodup)
    (h : Table.get? (c.apply l) c.name = some none) : c = .reserve c.name := by
  cases c with
  | reserve name => rfl
  | settle call name made =>
      cases made with
      | some t =>
          rw [apply, Change.name, Library.store, Table.get?_insert, if_pos rfl] at h
          cases h
      | none =>
          rw [apply, Change.name, Library.remove, Table.get?_erase hl, if_pos rfl] at h
          cases h
  | offer name t =>
      rw [apply, Change.name, Library.store, Table.get?_insert, if_pos rfl] at h
      cases h

end Change

/-! ## Journals -/

/-- A change, and the library it was made to. -/
structure Event where
  found : Library
  change : Change

/-- Changes in order. -/
abbrev Journal := List Event

namespace Journal

/-- The library after the changes. -/
def library (j : Journal) : Library := j.foldl (fun l e => e.change.apply l) []

/-- The call has reserved the name, and nothing was done to the name since. -/
def Pending (j : Journal) (call : Nat) (name : String) : Prop :=
  (∃ e, j[call]? = some e ∧ e.change = .reserve name) ∧
    ∀ e ∈ j.drop (call + 1), e.change.name ≠ name

/-- The change may be made after those of the journal. -/
def Permits (j : Journal) : Change → Prop
  | .reserve name => j.library.knows name = false
  | .settle call name _ => j.Pending call name
  | .offer name _ => j.library.knows name = false

/-- Every change was made to what the earlier ones had left, and was permitted there. -/
inductive Lawful : Journal → Prop
  | nil : Lawful []
  | concat {j : Journal} {e : Event} : Lawful j → e.found = j.library → j.Permits e.change →
      Lawful (j ++ [e])

variable {j more before after middle : Journal} {e : Event} {c : Change} {call : Nat}
  {name : String}

theorem library_append (j more : Journal) : (j ++ more).library =
    more.foldl (fun l e => e.change.apply l) j.library :=
  List.foldl_append

theorem library_concat (j : Journal) (e : Event) :
    (j ++ [e]).library = e.change.apply j.library :=
  library_append j [e]

/-- What nothing was done to is as it was. -/
theorem get?_library_append (h : ∀ e ∈ more, e.change.name ≠ name) :
    Table.get? (j ++ more).library name = Table.get? j.library name := by
  induction more using List.reverseRecOn with
  | nil => rw [List.append_nil]
  | append_singleton more e ih =>
      rw [← List.append_assoc, library_concat, Change.get?_apply_of_ne e.change (h e (by simp))]
      exact ih fun other hother => h other (List.mem_append_left _ hother)

theorem nodup_library (j : Journal) : (Table.names j.library).Nodup := by
  induction j using List.reverseRecOn with
  | nil => exact List.nodup_nil
  | append_singleton j e ih =>
      rw [library_concat]
      exact Change.nodup_apply ih

/-- A name is reserved for as long as the call that reserved it has not settled it. -/
theorem Pending.get? (h : j.Pending call name) : Table.get? j.library name = some none := by
  obtain ⟨⟨e, he, hchange⟩, hsince⟩ := h
  obtain ⟨hlt, hget⟩ := List.getElem?_eq_some_iff.mp he
  have hsplit : j = (j.take call ++ [e]) ++ j.drop (call + 1) := by
    rw [List.append_assoc, List.singleton_append, ← hget, List.getElem_cons_drop hlt,
      List.take_append_drop]
  rw [hsplit, get?_library_append hsince, library_concat, hchange]
  exact (Table.get?_insert ..).trans (if_pos rfl)

/-- After more changes the call is still to settle the name, if none of them was to it. -/
theorem Pending.append (h : j.Pending call name) (hmore : ∀ e ∈ more, e.change.name ≠ name) :
    (j ++ more).Pending call name := by
  obtain ⟨⟨e, he, hchange⟩, hsince⟩ := h
  have hlt : call < j.length := (List.getElem?_eq_some_iff.mp he).1
  refine ⟨⟨e, by rw [List.getElem?_append_left hlt, he], hchange⟩, fun other hother => ?_⟩
  rw [List.drop_append_of_le_length (by omega), List.mem_append] at hother
  exact hother.elim (hsince other) (hmore other)

/-- No two calls are to settle one name. -/
theorem Pending.unique {other : Nat} (h : j.Pending call name) (h' : j.Pending other name) :
    call = other := by
  -- The later one would have reserved the name after the earlier one.
  have hle : ∀ {first second}, j.Pending first name → j.Pending second name → second ≤ first := by
    rintro first second ⟨-, hsince⟩ ⟨⟨e, he, hchange⟩, -⟩
    by_contra hlt
    have hmem : e ∈ j.drop (first + 1) := by
      refine List.mem_iff_getElem?.mpr ⟨second - (first + 1), ?_⟩
      rw [List.getElem?_drop, Nat.add_sub_cancel' (Nat.lt_of_not_le hlt), he]
    exact hsince e hmem (congrArg Change.name hchange)
  exact Nat.le_antisymm (hle h' h) (hle h h')

/-- A call that reserves a name is to settle it. -/
theorem pending_concat (he : e.change = .reserve name) :
    (j ++ [e]).Pending j.length name := by
  refine ⟨⟨e, List.getElem?_concat_length, he⟩, fun other hother => ?_⟩
  rw [List.drop_of_length_le (by simp)] at hother
  exact absurd hother List.not_mem_nil

/-- A reserved name is changed by the call that reserved it, which settles it. -/
theorem Permits.of_reserved (h : j.Permits c) (hreserved : j.library.isReserved c.name = true) :
    ∃ call made, c = .settle call c.name made ∧ j.Pending call c.name := by
  have hknown := Library.knows_of_isReserved hreserved
  cases c with
  | reserve name => exact absurd (h.symm.trans hknown) Bool.false_ne_true
  | settle call name made => exact ⟨call, made, rfl, h⟩
  | offer name t => exact absurd (h.symm.trans hknown) Bool.false_ne_true

/-- What is permitted takes no template away. -/
theorem Permits.keeps (h : j.Permits c) : j.library.Keeps (c.apply j.library) := by
  cases c with
  | reserve name => exact (Library.Extends.reserve h).keeps
  | offer name t => exact (Library.Extends.store h t).keeps
  | settle call name made =>
      intro other t ht
      have hne : name ≠ other := by
        rintro rfl
        rw [Library.template?, h.get?] at ht
        cases ht
      rw [Library.template?, Change.get?_apply_of_ne (.settle call name made) hne]
      exact ht

theorem lawful_concat_iff :
    (j ++ [e]).Lawful ↔ j.Lawful ∧ e.found = j.library ∧ j.Permits e.change := by
  constructor
  · intro h
    generalize hj : j ++ [e] = j' at h
    cases h with
    | nil => exact absurd hj (List.append_ne_nil_of_right_ne_nil j (List.cons_ne_nil e []))
    | concat h hfound hpermits =>
        obtain ⟨rfl, he⟩ := List.append_inj' hj rfl
        obtain rfl := (List.cons.inj he).1
        exact ⟨h, hfound, hpermits⟩
  · rintro ⟨h, hfound, hpermits⟩
    exact .concat h hfound hpermits

theorem Lawful.of_append (h : (before ++ more).Lawful) : before.Lawful := by
  induction more using List.reverseRecOn with
  | nil => rwa [List.append_nil] at h
  | append_singleton more e ih =>
      rw [← List.append_assoc, lawful_concat_iff] at h
      exact ih h.1

/-- Every change of a lawful journal was made to what the earlier ones had left, and was permitted
there. -/
theorem Lawful.made (h : (before ++ e :: after).Lawful) :
    e.found = before.library ∧ before.Permits e.change := by
  rw [List.append_cons] at h
  exact (lawful_concat_iff.mp h.of_append).2

/-- A stored template is there for good. -/
theorem Lawful.keeps (h : (before ++ more).Lawful) :
    before.library.Keeps (before ++ more).library := by
  induction more using List.reverseRecOn with
  | nil =>
      rw [List.append_nil]
      exact Library.Keeps.refl _
  | append_singleton more e ih =>
      rw [← List.append_assoc, lawful_concat_iff] at h
      rw [← List.append_assoc, library_concat]
      exact fun name t ht => h.2.2.keeps name t (ih h.1 name t ht)

/-- The names that are reserved are those which a call is to settle. -/
theorem Lawful.isReserved_iff (h : j.Lawful) :
    j.library.isReserved name = true ↔ ∃ call, j.Pending call name := by
  constructor
  · intro hreserved
    rw [Library.isReserved_iff] at hreserved
    induction h with
    | nil => cases hreserved
    | @concat j e _ _ _ ih =>
        rw [library_concat] at hreserved
        by_cases hname : e.change.name = name
        · subst hname
          exact ⟨_, pending_concat (Change.eq_reserve (nodup_library j) hreserved)⟩
        · rw [Change.get?_apply_of_ne _ hname] at hreserved
          obtain ⟨call, hcall⟩ := ih hreserved
          refine ⟨call, hcall.append fun other hother => ?_⟩
          rwa [List.mem_singleton.mp hother]
  · rintro ⟨call, hcall⟩
    exact Library.isReserved_iff.mpr hcall.get?

end Journal

end SchemaForm
