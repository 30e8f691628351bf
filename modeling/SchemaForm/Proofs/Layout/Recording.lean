/-
Building with a journal.

A computation with a journal keeps the journal of one without (`Journals`) if it is the same but for
the journal, and if it is lawful: it goes on from a journal of what was done to the library so far
with one that is lawful again, does nothing to a name that was known, and leaves no name reserved
that was not.  Recording is kept by every way in which building is put together, so that it is
enough to say what changes the library, and that the rest leaves it alone (`Build.Quiet`).
-/
import SchemaForm.Proofs.Layout.Composed
import SchemaForm.Proofs.Layout.Journal

namespace SchemaForm

open Build

/-! ## Computations that leave the library alone -/

/-- The computation does nothing to the templates. -/
def Build.Quiet {α : Type} (m : Build α) : Prop :=
  ∀ p a q, m.Runs p a q → q.templates = p.templates

/-! ## Going on with a journal -/

namespace Journal

variable {j j' j'' : Journal} {p : Progress} {name : String}

/-- The journal is lawful and tells how the library has come about. -/
structure Current (j : Journal) (p : Progress) : Prop where
  lawful : j.Lawful
  templates : p.templates = j.library

/-- The second journal goes on from the first with changes of names that were not known. -/
def Grows (j j' : Journal) : Prop :=
  ∃ more, j' = j ++ more ∧ ∀ e ∈ more, j.library.knows e.change.name = false

theorem Grows.refl (j : Journal) : j.Grows j :=
  ⟨[], (List.append_nil j).symm, fun _ he => absurd he List.not_mem_nil⟩

theorem Grows.concat {e : Event} (h : j.Grows j') (hnew : j.library.knows e.change.name = false) :
    j.Grows (j' ++ [e]) := by
  obtain ⟨more, rfl, hmore⟩ := h
  refine ⟨more ++ [e], List.append_assoc .., fun other hother => ?_⟩
  rcases List.mem_append.mp hother with hother | hother
  · exact hmore other hother
  · rw [List.mem_singleton.mp hother]
    exact hnew

theorem Grows.exists_more (h : j.Grows j') (hknown : j.library.knows name = true) :
    ∃ more, j' = j ++ more ∧ ∀ e ∈ more, e.change.name ≠ name := by
  obtain ⟨more, he, hmore⟩ := h
  refine ⟨more, he, fun e hm hname => ?_⟩
  exact absurd ((hmore e hm).symm.trans (hname ▸ hknown)) Bool.false_ne_true

/-- What was known is as it was. -/
theorem Grows.get? (h : j.Grows j') (hknown : j.library.knows name = true) :
    Table.get? j'.library name = Table.get? j.library name := by
  obtain ⟨more, rfl, hmore⟩ := h.exists_more hknown
  exact get?_library_append hmore

theorem Grows.knows (h : j.Grows j') (hknown : j.library.knows name = true) :
    j'.library.knows name = true := by
  rw [Library.knows, Table.has, h.get? hknown]
  exact hknown

theorem Grows.trans (h : j.Grows j') (h' : j'.Grows j'') : j.Grows j'' := by
  obtain ⟨more', rfl, hmore'⟩ := h'
  obtain ⟨more, he, hmore⟩ := id h
  refine ⟨more ++ more', by rw [he, List.append_assoc], fun e hm => ?_⟩
  rcases List.mem_append.mp hm with hm | hm
  · exact hmore e hm
  · rw [← Bool.not_eq_true]
    intro hknown
    exact absurd ((hmore' e hm).symm.trans (h.knows hknown)) Bool.false_ne_true

/-- The call that has reserved a name is to settle it still, after changes of names that were not
known. -/
theorem Pending.grows {call : Nat} (h : j.Pending call name) (hgrows : j.Grows j') :
    j'.Pending call name := by
  have hknown := Library.knows_of_isReserved (Library.isReserved_iff.mpr h.get?)
  obtain ⟨more, rfl, hmore⟩ := hgrows.exists_more hknown
  exact h.append hmore

/-- The second journal goes on from the first, and no more names are reserved. -/
structure Continues (j j' : Journal) : Prop where
  grows : j.Grows j'
  released : ∀ name, j'.library.isReserved name = true → j.library.isReserved name = true

theorem Continues.refl (j : Journal) : j.Continues j := ⟨.refl j, fun _ h => h⟩

theorem Continues.trans (h : j.Continues j') (h' : j'.Continues j'') : j.Continues j'' :=
  ⟨h.grows.trans h'.grows, fun name hname => h.released name (h'.released name hname)⟩

/-- A permitted change is written down with the library it is made to. -/
theorem Current.concat {c : Change} (hj : j.Current p) (h : j.Permits c) :
    Current (j ++ [⟨p.templates, c⟩]) { p with templates := c.apply p.templates } :=
  ⟨.concat hj.lawful hj.templates h, by rw [library_concat, hj.templates]⟩

/-- A template that is offered under a new name reserves none. -/
theorem Continues.offer {t : Template} {found : Library}
    (hnew : j.library.knows name = false) : j.Continues (j ++ [⟨found, .offer name t⟩]) := by
  refine ⟨(Grows.refl j).concat hnew, fun other hother => ?_⟩
  rw [Library.isReserved_iff, library_concat] at hother
  by_cases he : name = other
  · cases Change.eq_reserve (c := .offer name t) (nodup_library j) (he ▸ hother)
  · rw [Change.get?_apply_of_ne (.offer name t) he] at hother
    exact Library.isReserved_iff.mpr hother

/-- A call that has settled what it reserved, and the calls in between, leave no name reserved. -/
theorem Continues.settle {e : Event} {made : Option Template} {found : Library} {call : Nat}
    (h : (j ++ [e]).Continues j') (hnew : j.library.knows name = false)
    (he : e.change = .reserve name) :
    j.Continues (j' ++ [⟨found, .settle call name made⟩]) := by
  have hreserved : j.Grows (j ++ [e]) := (Grows.refl j).concat (by rw [he]; exact hnew)
  refine ⟨(hreserved.trans h.grows).concat hnew, fun other hother => ?_⟩
  rw [Library.isReserved_iff, library_concat] at hother
  by_cases hname : name = other
  · cases Change.eq_reserve (c := .settle call name made) (nodup_library j') (hname ▸ hother)
  · rw [Change.get?_apply_of_ne (.settle call name made) hname] at hother
    have hbefore := h.released other (Library.isReserved_iff.mpr hother)
    rw [Library.isReserved_iff, library_concat, he,
      Change.get?_apply_of_ne (.reserve name) hname] at hbefore
    exact Library.isReserved_iff.mpr hbefore

end Journal

/-! ## Computations with a journal -/

/-- A computation that builds part of a layout and keeps a journal of the library. -/
abbrev Journaled := StateT Journal Build

namespace Journaled

variable {α β : Type} {M : Journaled α} {m : Build α} {p q : Progress} {j j' : Journal} {a : α}
  {c : Change}

/-- Makes a change and writes it down. -/
def change (c : Change) : Journaled Unit := do
  let p ← (get : Build Progress)
  modify (· ++ [⟨p.templates, c⟩])
  onTemplates c.apply

theorem runs_change {u : Unit} : ((change c).run j).Runs p (u, j') q ↔
    j' = j ++ [⟨p.templates, c⟩] ∧ q = { p with templates := c.apply p.templates } := by
  show some (((), j ++ [⟨p.templates, c⟩]), { p with templates := c.apply p.templates }) =
    some ((u, j'), q) ↔ _
  simp [eq_comm]

theorem runs_pure {b : α} : ((pure a : Journaled α).run j).Runs p (b, j') q ↔
    b = a ∧ j' = j ∧ q = p := by
  rw [StateT.run_pure, Build.runs_pure, Prod.mk.injEq, and_assoc]

theorem runs_bind {F : α → Journaled β} {b : β} : ((M >>= F).run j).Runs p (b, j') q ↔
    ∃ a i r, (M.run j).Runs p (a, i) r ∧ ((F a).run i).Runs r (b, j') q := by
  rw [StateT.run_bind, Build.runs_bind]
  constructor
  · rintro ⟨⟨a, i⟩, r, hM, hF⟩
    exact ⟨a, i, r, hM, hF⟩
  · rintro ⟨a, i, r, hM, hF⟩
    exact ⟨(a, i), r, hM, hF⟩

theorem runs_lift : ((liftM m : Journaled α).run j).Runs p (a, j') q ↔ m.Runs p a q ∧ j' = j := by
  show (m >>= fun a => pure (a, j)).Runs p (a, j') q ↔ _
  rw [Build.runs_bind]
  constructor
  · rintro ⟨b, r, hm, hpure⟩
    obtain ⟨he, rfl⟩ := Build.runs_pure.mp hpure
    obtain ⟨rfl, rfl⟩ := Prod.mk.inj he
    exact ⟨hm, rfl⟩
  · rintro ⟨hm, rfl⟩
    exact ⟨a, q, hm, Build.runs_pure.mpr ⟨rfl, rfl⟩⟩

theorem runs_get {i : Journal} : ((get : Journaled Journal).run j).Runs p (i, j') q ↔
    i = j ∧ j' = j ∧ q = p := by
  show (pure (j, j) : Build (Journal × Journal)).Runs p (i, j') q ↔ _
  rw [Build.runs_pure, Prod.mk.injEq, and_assoc]

/-- Whatever is in the journal, the computation is the other one but for it. -/
def Erases (M : Journaled α) (m : Build α) : Prop := ∀ j, Prod.fst <$> M.run j = m

namespace Erases

theorem pure (a : α) : Erases (pure a) (pure a) := fun _ => rfl

theorem bind {F : α → Journaled β} {f : α → Build β} (hM : Erases M m)
    (hF : ∀ a, Erases (F a) (f a)) : Erases (M >>= F) (m >>= f) := by
  intro j
  have hrest : ∀ made : α × Journal, Prod.fst <$> (F made.1).run made.2 = f made.1 :=
    fun made => hF made.1 made.2
  rw [StateT.run_bind, map_bind, ← hM j, bind_map_left]
  exact congrArg _ (funext hrest)

theorem lift (m : Build α) : Erases (liftM m) m := by
  intro j
  have hrun : (liftM m : Journaled α).run j = (m >>= fun a => Pure.pure (a, j)) := rfl
  rw [hrun, map_bind]
  simp

theorem change (c : Change) : Erases (change c) (onTemplates c.apply) := fun _ => rfl

/-- What is read in the journal makes no difference. -/
theorem read {F : Journal → Journaled α} (h : ∀ i, Erases (F i) m) :
    Erases (get >>= F) m := fun j => h j j

end Erases

end Journaled

/-! ## Recording -/

/-- The computation with a journal is the other one but for the journal, and lawful. -/
structure Journals {α : Type} (M : Journaled α) (m : Build α) : Prop where
  erases : Journaled.Erases M m
  lawful : ∀ {j p a j' q}, (M.run j).Runs p (a, j') q → j.Current p →
    j'.Current q ∧ j.Continues j'

namespace Journals

variable {α β : Type} {M : Journaled α} {m : Build α}

theorem pure (a : α) : Journals (pure a) (pure a) := by
  refine ⟨.pure a, fun h hj => ?_⟩
  obtain ⟨-, rfl, rfl⟩ := Journaled.runs_pure.mp h
  exact ⟨hj, .refl _⟩

theorem bind {F : α → Journaled β} {f : α → Build β} (hM : Journals M m)
    (hF : ∀ a, Journals (F a) (f a)) : Journals (M >>= F) (m >>= f) := by
  refine ⟨hM.erases.bind fun a => (hF a).erases, fun h hj => ?_⟩
  obtain ⟨a, i, r, ha, hb⟩ := Journaled.runs_bind.mp h
  obtain ⟨hcurrent, hcontinues⟩ := hM.lawful ha hj
  obtain ⟨hcurrent', hcontinues'⟩ := (hF a).lawful hb hcurrent
  exact ⟨hcurrent', hcontinues.trans hcontinues'⟩

theorem map (f : α → β) (hM : Journals M m) : Journals (f <$> M) (f <$> m) := by
  rw [map_eq_pure_bind, map_eq_pure_bind]
  exact hM.bind fun a => .pure (f a)

/-- What leaves the library alone needs no record. -/
theorem lift (h : m.Quiet) : Journals (liftM m) m := by
  refine ⟨.lift m, fun hruns hj => ?_⟩
  obtain ⟨hm, rfl⟩ := Journaled.runs_lift.mp hruns
  exact ⟨⟨hj.lawful, (h _ _ _ hm).trans hj.templates⟩, .refl _⟩

theorem failure : Journals (failure : Journaled α) failure :=
  ⟨fun _ => rfl, fun h _ => absurd h not_runs_failure⟩

theorem mapM {F : α → Journaled β} {f : α → Build β} {xs : List α}
    (h : ∀ x ∈ xs, Journals (F x) (f x)) : Journals (xs.mapM F) (xs.mapM f) := by
  induction xs with
  | nil => exact .pure []
  | cons x xs ih =>
      rw [List.mapM_cons, List.mapM_cons]
      refine .bind (h x List.mem_cons_self) fun y => .bind (ih fun x hx => ?_) fun ys => .pure _
      exact h x (List.mem_cons_of_mem _ hx)

end Journals

/-! ## Steps that leave the library alone -/

namespace Build

theorem quiet_get : (get : Build Progress).Quiet := fun _ _ _ h => by rw [(runs_get.mp h).2]

theorem quiet_newId : newId.Quiet := fun _ _ _ h => by rw [(runs_newId.mp h).2]

theorem quiet_note (key : String) (f : DataEntry → DataEntry) : (note key f).Quiet :=
  fun _ _ _ h => by rw [runs_note.mp h]

theorem quiet_copies (t : Template) (site : Site) (count : Nat) : (copies t site count).Quiet := by
  intro p made q h
  obtain ⟨⟨last, rfl⟩, -⟩ := runs_copies h
  rfl

theorem quiet_instantiate (name : String) (site : Site) : (instantiate name site).Quiet := by
  intro p made q h
  rcases runs_instantiate.mp h with ⟨-, -, rfl⟩ | ⟨t, n, -, hn, -⟩
  · rfl
  · rw [(runs_placed.mp hn).2]

end Build

namespace Generate

theorem quiet_markRequired (required : Bool) (nodes : List Node) :
    (markRequired required nodes).Quiet := by
  intro p made q h
  rcases runs_markRequired h with ⟨-, rfl⟩ | ⟨-, rfl⟩ <;> rfl

theorem quiet_fillItems (name : String) (site : Site) (count : Nat) (items : List Node) :
    (fillItems name site count items).Quiet := by
  intro p made q h
  rcases runs_fillItems h with ⟨-, rfl⟩ | ⟨t, more, -, hmore, -⟩
  · rfl
  · exact quiet_copies _ _ _ _ _ _ hmore

theorem quiet_withAddControl (ctx : Setup) (site : ArraySite) (schema : Json) (c : Control)
    (bounds : ArrayBounds) (items : List Node) :
    (withAddControl ctx site schema c bounds items).Quiet := by
  intro p made q h
  rcases runs_withAddControl h with ⟨-, rfl⟩ | ⟨-, -, rfl⟩ <;> rfl

end Generate

namespace Compose

theorem quiet_asItems (ctx : Setup) (g : Grouping) (array : Control) (bounds : ArrayBounds)
    (children : List Node) : (asItems ctx g array bounds children).Quiet := by
  intro p made q h
  rcases runs_asItems h with ⟨-, -, -, rfl, -⟩ | h
  · rfl
  · obtain ⟨-, -, ⟨-, -, rfl⟩ | ⟨-, -, rfl⟩⟩ := runs_regroup h <;> rfl

theorem quiet_fillFrom (ctx : Setup) (g : Grouping) (array : Control) (bounds : ArrayBounds)
    (existing : Nat) (dataPointer name : String) (t : Template) (items : List Node) :
    (fillFrom ctx g array bounds existing dataPointer name t items).Quiet := by
  intro p made q h
  obtain ⟨_, _, s, hmore, hadded⟩ := runs_fillFrom h
  have hsame : s.templates = p.templates := quiet_copies _ _ _ _ _ _ hmore
  rcases hadded with ⟨-, rfl⟩ | ⟨-, -, -, rfl⟩ <;> exact hsame

theorem quiet_schemaPointerFor (ctx : Setup) (key : String) :
    (schemaPointerFor ctx key).Quiet := by
  intro p found q h
  rcases runs_schemaPointerFor h with ⟨-, rfl⟩ | ⟨-, rfl⟩ <;> rfl

theorem quiet_describeBound (ctx : Setup) (key : String) (schemaPointer : Option String)
    (c : Control) : (describeBound ctx key schemaPointer c).Quiet := by
  intro p made q h
  obtain ⟨-, -, -, -, hsame, -⟩ := runs_describeBound h
  exact hsame

theorem quiet_withSubmit (ctx : Setup) (nodes : List Node) : (withSubmit ctx nodes).Quiet := by
  intro p made q h
  rcases runs_withSubmit h with ⟨-, rfl⟩ | ⟨-, rfl⟩ <;> rfl

end Compose

end SchemaForm
