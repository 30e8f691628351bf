/-
What building keeps of the template library.

A name is known from when it is reserved.  What is known under a name stays as it is
while the templates of other names are built (`Extends`), so that a template that is
stored once is the one under its name for good (`Keeps`), whatever the nested builds
reserve, store and remove.
-/
import SchemaForm.Proofs.Layout.Run
import SchemaForm.Proofs.Table

namespace SchemaForm

namespace Library

variable {l l' l'' : Library} {name : String} {t : Template}

theorem template?_eq_some : l.template? name = some t ↔ Table.get? l name = some (some t) :=
  Option.join_eq_some_iff

theorem template?_mem (h : l.template? name = some t) : (name, some t) ∈ l :=
  Table.mem_of_get? (template?_eq_some.mp h)

theorem knows_eq_false : l.knows name = false ↔ Table.get? l name = none :=
  Option.isSome_eq_false_iff.trans Option.isNone_iff_eq_none

/-- What is known under a name is the same in the second library. -/
def Extends (l l' : Library) : Prop :=
  ∀ name entry, Table.get? l name = some entry → Table.get? l' name = some entry

/-- Every stored template is stored under its name in the second library. -/
def Keeps (l l' : Library) : Prop :=
  ∀ name t, l.template? name = some t → l'.template? name = some t

theorem Extends.refl (l : Library) : l.Extends l := fun _ _ h => h

theorem Extends.trans (h : l.Extends l') (h' : l'.Extends l'') : l.Extends l'' :=
  fun name entry he => h' name entry (h name entry he)

theorem Extends.keeps (h : l.Extends l') : l.Keeps l' :=
  fun name _ ht => template?_eq_some.mpr (h name _ (template?_eq_some.mp ht))

theorem Keeps.refl (l : Library) : l.Keeps l := fun _ _ h => h

theorem Extends.reserve (h : l.knows name = false) : l.Extends (l.reserve name) := by
  intro other entry he
  rw [Library.reserve, Table.get?_insert]
  split
  · next hname =>
      subst hname
      rw [knows_eq_false.mp h] at he
      cases he
  · exact he

/-- Storing under a new name changes nothing else. -/
theorem Extends.store (h : l.knows name = false) (t : Template) : l.Extends (l.store name t) := by
  intro other entry he
  rw [Library.store, Table.get?_insert]
  split
  · next hname =>
      subst hname
      rw [knows_eq_false.mp h] at he
      cases he
  · exact he

/-- A name that stays reserved has no template that could be lost. -/
theorem not_template?_of_reserved (h : (l.reserve name).Extends l') :
    l'.template? name = none := by
  have hget := h name none (by rw [Library.reserve, Table.get?_insert, if_pos rfl])
  rw [template?, hget]
  rfl

/-- The names known before the one that is reserved are not it. -/
theorem ne_of_known {other : String} {entry : Option Template} (hl : l.knows name = false)
    (he : Table.get? l other = some entry) : name ≠ other := by
  rintro rfl
  rw [knows_eq_false.mp hl] at he
  cases he

/-- A template is stored under its reserved name, and nothing else changes. -/
theorem extends_store (hl : l.knows name = false) (h : (l.reserve name).Extends l')
    (t : Template) : l.Extends (l'.store name t) ∧ l'.Keeps (l'.store name t) := by
  constructor
  · intro other entry he
    rw [store, Table.get?_insert, if_neg (ne_of_known hl he)]
    exact h other entry (Extends.reserve hl other entry he)
  · intro other stored ht
    rw [template?_eq_some, store, Table.get?_insert]
    split
    · next hname =>
        rw [← hname, not_template?_of_reserved h] at ht
        cases ht
    · exact template?_eq_some.mp ht

/-- A reserved name is released, and nothing else changes. -/
theorem extends_remove (hl : l.knows name = false) (h : (l.reserve name).Extends l') :
    l.Extends (l'.remove name) ∧ l'.Keeps (l'.remove name) := by
  constructor
  · intro other entry he
    rw [remove, Table.get?_erase_of_ne (ne_of_known hl he)]
    exact h other entry (Extends.reserve hl other entry he)
  · intro other stored ht
    have hne : name ≠ other := by
      rintro rfl
      rw [not_template?_of_reserved h] at ht
      cases ht
    rw [template?_eq_some, remove, Table.get?_erase_of_ne hne]
    exact template?_eq_some.mp ht

theorem mem_settled {relative : Bool} {made : List Node} {other : String}
    (h : (other, some t) ∈ Generate.settled l name relative made) :
    (other, some t) ∈ l ∨ other = name ∧ ∃ n, made.getLast? = some n ∧
      t = Template.of (Generate.storedNode relative n) relative := by
  unfold Generate.settled at h
  split at h
  · next n hn =>
      cases Table.mem_insert h with
      | inl he =>
          obtain ⟨hname, ht⟩ := Prod.mk.inj he
          exact .inr ⟨hname, n, hn, Option.some.inj ht⟩
      | inr hm => exact .inl hm
  · exact .inl (Table.mem_erase h)

theorem extends_settled (hl : l.knows name = false) (h : (l.reserve name).Extends l')
    (relative : Bool) (made : List Node) :
    l.Extends (Generate.settled l' name relative made) ∧
      l'.Keeps (Generate.settled l' name relative made) := by
  unfold Generate.settled
  split
  · exact extends_store hl h _
  · exact extends_remove hl h

theorem get?_mapControls (f : Control → Control) (l : Library) (name : String) :
    Table.get? (l.mapControls f) name =
      (Table.get? l name).map (Option.map fun t => ⟨t.node.map f, t.relative⟩) := by
  induction l with
  | nil => rfl
  | cons entry rest ih =>
      obtain ⟨other, stored⟩ := entry
      unfold mapControls at ih ⊢
      rw [List.map_cons, Table.get?_cons, Table.get?_cons]
      split
      · rfl
      · exact ih

theorem template?_mapControls (f : Control → Control) (l : Library) (name : String) :
    (l.mapControls f).template? name =
      (l.template? name).map fun t => ⟨t.node.map f, t.relative⟩ := by
  rw [template?, template?, get?_mapControls]
  cases Table.get? l name with
  | none => rfl
  | some stored => cases stored <;> rfl

theorem isReserved_iff : l.isReserved name = true ↔ Table.get? l name = some none := by
  unfold isReserved
  split
  · next hget => exact iff_of_true rfl hget
  · next hget => exact iff_of_false Bool.false_ne_true hget

theorem knows_of_isReserved (h : l.isReserved name = true) : l.knows name = true := by
  rw [knows, Table.has, isReserved_iff.mp h]
  rfl

/-- Changing controls reserves no name, and releases none. -/
theorem isReserved_mapControls (f : Control → Control) (l : Library) (name : String) :
    (l.mapControls f).isReserved name = l.isReserved name := by
  rw [Bool.eq_iff_iff, isReserved_iff, isReserved_iff, get?_mapControls]
  cases Table.get? l name with
  | none => exact iff_of_false (Option.some_ne_none _).symm (Option.some_ne_none _).symm
  | some stored => cases stored <;> simp

end Library

end SchemaForm
