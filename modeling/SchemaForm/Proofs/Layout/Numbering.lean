/-
Ids of layout nodes.

`Node.ids` lists the ids of nodes and of all they contain.  A computation that
takes nodes and gives nodes *draws* from its input and from the counter: the ids
of what it gives are, each at most as often, ids of what it was given and ids
that were given out meanwhile.  Drawing composes, so that at the end the ids of a
layout are among those given out, none twice.

Stored templates never have ids.  What is built for a template may have some, for
copies of other templates in it do; storing it takes them away.
-/
import Mathlib.Data.List.Nodup
import Mathlib.Data.List.Perm.Subperm
import SchemaForm.Proofs.Layout.Library
import SchemaForm.Proofs.Layout.Links

namespace SchemaForm

namespace Node

/-! ## The ids of nodes -/

/-- The ids of nodes and of all they contain. -/
def ids (ns : List Node) : List (Option Nat) := (controlsAll ns).map Control.id

@[simp] theorem ids_nil : ids [] = [] := rfl

theorem ids_append (ns ms : List Node) : ids (ns ++ ms) = ids ns ++ ids ms := by
  simp [ids, controlsAll_append]

theorem ids_cons (n : Node) (ns : List Node) : ids (n :: ns) = ids [n] ++ ids ns :=
  ids_append [n] ns

theorem ids_mk (c : Control) (items : List Node) : ids [mk c items] = c.id :: ids items := by
  simp [ids, controlsAll, controls]

theorem ids_sublist {ns ms : List Node} (h : ns.Sublist ms) : (ids ns).Sublist (ids ms) := by
  induction h with
  | slnil => exact List.Sublist.refl _
  | @cons _ ms n _ ih =>
      rw [ids_cons n ms]
      exact ih.trans (List.sublist_append_right _ _)
  | @cons_cons ns ms n _ ih =>
      rw [ids_cons n ns, ids_cons n ms]
      exact ih.append_left _

theorem ids_perm {ns ms : List Node} (h : ns.Perm ms) : (ids ns).Perm (ids ms) := by
  induction h with
  | nil => exact List.Perm.refl _
  | @cons n ns ms _ ih =>
      rw [ids_cons n ns, ids_cons n ms]
      exact ih.append_left _
  | swap n m ns =>
      rw [ids_cons m (n :: ns), ids_cons n ns, ids_cons n (m :: ns), ids_cons m ns,
        ← List.append_assoc, ← List.append_assoc]
      exact List.perm_append_comm.append_right _
  | trans _ _ ih₁ ih₂ => exact ih₁.trans ih₂

theorem ids_modify {f : Control → Control} (hf : ∀ c, (f c).id = c.id) (n : Node) :
    ids [n.modify f] = ids [n] := by
  cases n with
  | mk c items => simp [modify, ids_mk, hf]

theorem ids_map_modify {f : Control → Control} (hf : ∀ c, (f c).id = c.id) (ns : List Node) :
    ids (ns.map (·.modify f)) = ids ns := by
  induction ns with
  | nil => rfl
  | cons n ns ih => rw [List.map_cons, ids_cons, ids_modify hf, ih, ← ids_cons]

theorem ids_mapAll {f : Control → Control} (hf : ∀ c, (f c).id = c.id) (ns : List Node) :
    ids (mapAll f ns) = ids ns := by
  simp [ids, controlsAll_mapAll, Function.comp_def, hf]

end Node

/-! ## Templates without ids -/

/-- No node of a stored template has an id. -/
def Library.Unnumbered (l : Library) : Prop :=
  ∀ name t, (name, some t) ∈ l → ∀ c ∈ t.node.controls, c.id = none

namespace Library

theorem Unnumbered.reserve {l : Library} (h : l.Unnumbered) (name : String) :
    (l.reserve name).Unnumbered := by
  intro key t ht
  cases Table.mem_insert ht with
  | inl he => exact absurd he (by simp)
  | inr hm => exact h key t hm

theorem Unnumbered.store {l : Library} (h : l.Unnumbered) (name : String) (n : Node)
    (relative : Bool) : (l.store name (Template.of n relative)).Unnumbered := by
  intro key t ht
  cases Table.mem_insert ht with
  | inl he =>
      simp only [Prod.mk.injEq, Option.some.injEq] at he
      obtain ⟨-, rfl⟩ := he
      intro c hc
      simp only [Template.of, Node.controls_map] at hc
      obtain ⟨c', -, rfl⟩ := List.mem_map.mp hc
      rfl
  | inr hm => exact h key t hm

theorem Unnumbered.remove {l : Library} (h : l.Unnumbered) (name : String) :
    (l.remove name).Unnumbered :=
  fun key t ht => h key t (Table.mem_erase ht)

theorem Unnumbered.mapControls {l : Library} (h : l.Unnumbered) {f : Control → Control}
    (hf : ∀ c, (f c).id = c.id) : (l.mapControls f).Unnumbered := by
  intro key t ht
  simp only [Library.mapControls, List.mem_map] at ht
  obtain ⟨⟨name, stored⟩, hm, he⟩ := ht
  cases stored with
  | none => exact absurd he (by simp)
  | some s =>
      simp only [Option.map_some, Prod.mk.injEq, Option.some.injEq] at he
      obtain ⟨rfl, rfl⟩ := he
      intro c hc
      simp only [Node.controls_map] at hc
      obtain ⟨c', hc', rfl⟩ := List.mem_map.mp hc
      rw [hf]
      exact h name s hm c' hc'

theorem Unnumbered.settled {l : Library} (h : l.Unnumbered) (name : String) (relative : Bool)
    (made : List Node) : (Generate.settled l name relative made).Unnumbered := by
  unfold Generate.settled
  split
  · exact h.store name _ relative
  · exact h.remove name

end Library

/-! ## Drawing ids -/

/-- The ids given out after `a`, up to `b`. -/
def issued (a b : Nat) : List (Option Nat) := (List.range' (a + 1) (b - a)).map some

theorem issued_append {a b c : Nat} (hab : a ≤ b) (hbc : b ≤ c) :
    issued a b ++ issued b c = issued a c := by
  simp only [issued, ← List.map_append]
  congr 1
  have hb : b + 1 = (a + 1) + 1 * (b - a) := by omega
  rw [hb, List.range'_append]
  congr 1
  omega

theorem issued_self (a : Nat) : issued a a = [] := by simp [issued]

theorem issued_succ (a : Nat) : issued a (a + 1) = [some (a + 1)] := by simp [issued]

theorem issued_nodup (a b : Nat) : (issued a b).Nodup :=
  List.Nodup.map (fun _ _ => Option.some.inj) List.nodup_range'

theorem isSome_of_mem_issued {a b : Nat} {id : Option Nat} (h : id ∈ issued a b) :
    id.isSome = true := by
  obtain ⟨n, -, rfl⟩ := List.mem_map.mp h
  rfl

/-- The counter does not go back, and templates stay without ids. -/
structure Progress.Advances (p q : Progress) : Prop where
  le : p.lastId ≤ q.lastId
  unnumbered : p.templates.Unnumbered → q.templates.Unnumbered

/-- From `p` to `q`, the nodes `made` came out of the nodes `given` and of new
ids. -/
structure Draws (p q : Progress) (given made : List Node) : Prop where
  advances : p.Advances q
  ids : (Node.ids made).Subperm (Node.ids given ++ issued p.lastId q.lastId)

theorem Progress.Advances.refl (p : Progress) : p.Advances p := ⟨Nat.le_refl _, id⟩

theorem Progress.Advances.trans {p q r : Progress} (h : p.Advances q) (h' : q.Advances r) :
    p.Advances r :=
  ⟨Nat.le_trans h.le h'.le, fun hp => h'.unnumbered (h.unnumbered hp)⟩

/-- What becomes of the data map and of the required mark does not matter. -/
theorem Progress.Advances.of_eq {p q : Progress} (hl : q.lastId = p.lastId)
    (ht : q.templates = p.templates) : p.Advances q :=
  ⟨Nat.le_of_eq hl.symm, fun h => ht ▸ h⟩

namespace Draws

variable {p q r : Progress} {given made more : List Node}

theorem refl (p : Progress) (ns : List Node) : Draws p p ns ns :=
  ⟨.refl p, (List.sublist_append_left _ _).subperm⟩

theorem none (h : p.Advances q) (given : List Node) : Draws p q given [] :=
  ⟨h, List.nil_subperm⟩

theorem trans (h : Draws p q given made) (h' : Draws q r made more) : Draws p r given more := by
  refine ⟨h.advances.trans h'.advances, h'.ids.trans ?_⟩
  rw [← issued_append h.advances.le h'.advances.le, ← List.append_assoc]
  exact (List.subperm_append_right _).mpr h.ids

/-- Nodes that are set aside meanwhile are not touched. -/
theorem frame (h : Draws p q given made) (aside : List Node) :
    Draws p q (aside ++ given) (aside ++ made) := by
  refine ⟨h.advances, ?_⟩
  rw [Node.ids_append, Node.ids_append, List.append_assoc]
  exact (List.subperm_append_left _).mpr h.ids

/-- One list of nodes after the other. -/
theorem append {ns ms : List Node} (h : Draws p q [] ns) (h' : Draws q r [] ms) :
    Draws p r [] (ns ++ ms) := by
  have hf := h'.frame ns
  rw [List.append_nil] at hf
  exact h.trans hf

theorem of_advances (h : p.Advances q) (hi : (Node.ids made).Subperm (Node.ids given)) :
    Draws p q given made :=
  ⟨h, hi.trans (List.sublist_append_left _ _).subperm⟩

/-- Nodes that the same ids are on, some of them left out. -/
theorem weaken (h : Draws p q given made) (hi : (Node.ids more).Subperm (Node.ids made)) :
    Draws p q given more :=
  ⟨h.advances, hi.trans h.ids⟩

/-- A node with a new id of its own, around what was drawn after it. -/
theorem wrap {c : Control} {s : Progress} (hid : c.id = some (p.lastId + 1))
    (hs : s.lastId = p.lastId + 1) (hu : s.templates = p.templates)
    (h : Draws s q [] made) : Draws p q [] [.mk c made] := by
  have hp : p.Advances s := ⟨by omega, fun hp => hu ▸ hp⟩
  refine ⟨hp.trans h.advances, ?_⟩
  have hle : p.lastId ≤ p.lastId + 1 := Nat.le_succ _
  rw [Node.ids_mk, hid, Node.ids_nil, List.nil_append,
    ← issued_append hle (hs ▸ h.advances.le), issued_succ]
  refine (List.subperm_cons _).mpr ?_
  have hi := h.ids
  rwa [Node.ids_nil, List.nil_append, hs] at hi

end Draws

/-! ## Copies of templates -/

mutual

/-- A copy of a node takes the next ids, one for each node in it. -/
theorem Template.placeNode_ids (t : Template) (site : Site) :
    ∀ (n : Node) (last : Nat), last ≤ (t.placeNode site last n).2 ∧
      (Node.ids [(t.placeNode site last n).1]).Perm (issued last (t.placeNode site last n).2)
  | .mk c items, last => by
      obtain ⟨hle, hp⟩ := t.placeAll_ids site items last
      have hid : (t.placedControl site ((t.placeAll site last items).2 + 1) c).id =
          some ((t.placeAll site last items).2 + 1) := by
        unfold Template.placedControl
        split <;> rfl
      simp only [Template.placeNode]
      refine ⟨Nat.le_succ_of_le hle, ?_⟩
      rw [Node.ids_mk, hid, ← issued_append hle (Nat.le_succ _), issued_succ]
      exact (hp.cons _).trans (List.perm_append_singleton _ _).symm

theorem Template.placeAll_ids (t : Template) (site : Site) :
    ∀ (ns : List Node) (last : Nat), last ≤ (t.placeAll site last ns).2 ∧
      (Node.ids (t.placeAll site last ns).1).Perm (issued last (t.placeAll site last ns).2)
  | [], last => by simp [Template.placeAll, issued_self]
  | n :: rest, last => by
      obtain ⟨hle, hp⟩ := t.placeNode_ids site n last
      obtain ⟨hle', hp'⟩ := t.placeAll_ids site rest (t.placeNode site last n).2
      simp only [Template.placeAll]
      refine ⟨Nat.le_trans hle hle', ?_⟩
      rw [Node.ids_cons, ← issued_append hle hle']
      exact hp.append hp'

end

namespace Build

variable {p q : Progress}

theorem placed_draws {t : Template} {site : Site} {n : Node} (h : (placed t site).Runs p n q) :
    Draws p q [] [n] := by
  obtain ⟨rfl, rfl⟩ := runs_placed.mp h
  obtain ⟨hle, hp⟩ := t.placeNode_ids site t.node p.lastId
  exact ⟨⟨hle, id⟩, hp.subperm⟩

theorem copies_draws {t : Template} {site : Site} :
    ∀ {n : Nat} {p made q}, (copies t site n).Runs p made q → Draws p q [] made
  | 0, p, made, q, h => by
      obtain ⟨rfl, rfl⟩ := runs_pure.mp h
      exact .refl _ _
  | n + 1, p, made, q, h => by
      obtain ⟨first, r, rest, hf, hr, rfl⟩ := runs_copies_succ.mp h
      exact (placed_draws hf).append (copies_draws hr)

theorem instantiate_draws {name : String} {site : Site} {made : Option Node}
    (h : (instantiate name site).Runs p made q) : Draws p q [] made.toList := by
  rcases runs_instantiate.mp h with ⟨-, rfl, rfl⟩ | ⟨t, n, -, hn, rfl⟩
  · exact .refl _ _
  · exact placed_draws hn

end Build

/-! ## Layouts generated from the schema -/

namespace Generate

open Build

variable {ctx : Setup} {build : Builder} {r : Request} {p q : Progress}

/-- A builder advances the counter, and outside of templates all nodes it gives
have new ids. -/
def Numbers (build : Builder) : Prop :=
  ∀ {r p mapped q}, (build r).Runs p mapped q →
    p.Advances q ∧ (r.inTemplate = false → Draws p q [] mapped.toList)

theorem markRequired_draws {required : Bool} {nodes made : List Node}
    (h : (markRequired required nodes).Runs p made q) : Draws p q nodes made := by
  rcases runs_markRequired h with ⟨rfl, rfl⟩ | ⟨rfl, rfl⟩
  · exact .refl _ _
  · refine .of_advances (.of_eq rfl rfl) (List.Perm.subperm ?_)
    rw [Node.ids_map_modify]
    exact fun _ => rfl

theorem buildProperties_draws (hb : Numbers build) {schema : Json} {layoutPointer : String}
    {made : List Node} (h : (buildProperties build r schema layoutPointer).Runs p made q) :
    p.Advances q ∧ (r.inTemplate = false → Draws p q [] made) := by
  rcases runs_buildProperties h with ⟨rfl, rfl⟩ | ⟨properties, parts, -, hm, rfl⟩
  · exact ⟨.refl _, fun _ => .refl _ _⟩
  · refine runs_mapM (R := fun p parts q =>
      p.Advances q ∧ (r.inTemplate = false → Draws p q [] parts.flatten)) ?_ ?_ hm
    · exact fun p => ⟨.refl p, fun _ => .refl p _⟩
    · rintro name _ p part s parts q hp ⟨ha, hd⟩
      obtain ⟨mapped, s', required, hbuilt, hmark⟩ := runs_buildProperty hp
      obtain ⟨ha', hd'⟩ := hb hbuilt
      have hmark := markRequired_draws hmark
      exact ⟨(ha'.trans hmark.advances).trans ha,
        fun ht => ((hd' ht).trans hmark).append (hd ht)⟩

theorem ensureTemplate_advances (hb : Numbers build) {name : String} {relative : Bool} {u : Unit}
    (h : (ensureTemplate build name relative r).Runs p u q) : p.Advances q := by
  rcases runs_ensureTemplate h with ⟨-, rfl⟩ | ⟨-, mapped, s, hbuilt, rfl⟩
  · exact .refl _
  · obtain ⟨ha, -⟩ := hb hbuilt
    exact ⟨ha.le, fun hp => (ha.unnumbered (hp.reserve name)).settled name relative _⟩

theorem buildTupleItem_draws (hb : Numbers build) {site : ArraySite} {bounds : ArrayBounds}
    {removable : Bool} {index : Nat} {made : Option Node}
    (h : (buildTupleItem build r site bounds removable index).Runs p made q) :
    p.Advances q ∧ (r.inTemplate = false → Draws p q [] made.toList) := by
  rcases runs_buildTupleItem h with ⟨s, u, he, hi⟩ | ⟨mapped, hbuilt, rfl⟩
  · have ha := ensureTemplate_advances hb he
    have hd := instantiate_draws hi
    exact ⟨ha.trans hd.advances, fun _ => (Draws.none ha []).trans hd⟩
  · obtain ⟨ha, hd⟩ := hb hbuilt
    refine ⟨ha, fun ht => (hd ht).weaken (Node.ids_sublist ?_).subperm⟩
    cases hl : mapped.toList.getLast? with
    | none => exact List.nil_sublist _
    | some n => exact List.singleton_sublist.mpr (List.mem_of_getLast? hl)

theorem buildTuple_draws (hb : Numbers build) {site : ArraySite} {schema : Json}
    {bounds : ArrayBounds} {removable : Bool} {made : List Node}
    (h : (buildTuple build r site schema bounds removable).Runs p made q) :
    p.Advances q ∧ (r.inTemplate = false → Draws p q [] made) := by
  rcases runs_buildTuple h with ⟨rfl, rfl⟩ | ⟨tuple, parts, -, hm, rfl⟩
  · exact ⟨.refl _, fun _ => .refl _ _⟩
  · refine runs_mapM (R := fun p parts q =>
      p.Advances q ∧ (r.inTemplate = false → Draws p q [] (parts.filterMap id))) ?_ ?_ hm
    · exact fun p => ⟨.refl p, fun _ => .refl p _⟩
    · rintro index _ p part s parts q hp ⟨ha, hd⟩
      obtain ⟨ha', hd'⟩ := buildTupleItem_draws hb hp
      refine ⟨ha'.trans ha, ?_⟩
      intro ht
      have hall := (hd' ht).append (hd ht)
      cases part with
      | none => exact hall
      | some n => exact hall

theorem fillItems_draws {name : String} {site : Site} {count : Nat} {items made : List Node}
    (h : (fillItems name site count items).Runs p made q) : Draws p q items made := by
  rcases runs_fillItems h with ⟨rfl, rfl⟩ | ⟨t, more, -, hc, rfl⟩
  · exact .refl _ _
  · have hf := (copies_draws hc).frame items
    rwa [List.append_nil] at hf

theorem limitLast_ids (bounds : ArrayBounds) (items : List Node) :
    Node.ids (limitLast bounds items) = Node.ids items := by
  unfold limitLast
  split
  · next last hl =>
      split
      · obtain ⟨before, rfl⟩ := List.getLast?_eq_some_iff.mp hl
        rw [List.dropLast_concat, Node.ids_append, Node.ids_append, Node.ids_modify]
        exact fun _ => rfl
      · rfl
  · rfl

theorem withAddControl_draws {site : ArraySite} {schema : Json} {c : Control}
    {bounds : ArrayBounds} {items made : List Node}
    (h : (withAddControl ctx site schema c bounds items).Runs p made q) :
    Draws p q items made := by
  rcases runs_withAddControl h with ⟨rfl, rfl⟩ | ⟨label, rfl, rfl⟩
  · exact .of_advances (.refl _) (limitLast_ids bounds items ▸ List.Subperm.refl _)
  · refine ⟨⟨Nat.le_succ _, id⟩, ?_⟩
    rw [Node.ids_append, issued_succ]
    exact List.Subperm.refl _

theorem buildList_draws (hb : Numbers build) {site : ArraySite} {schema : Json} {c : Control}
    {bounds : ArrayBounds} {keyword : String} {items made : List Node}
    (h : (buildList ctx build r site schema c bounds keyword items).Runs p made q) :
    Draws p q items made := by
  obtain ⟨s, s', filled, count, u, he, hf, ha⟩ := runs_buildList h
  have hs : Draws p s items items :=
    .of_advances (ensureTemplate_advances hb he) (List.Subperm.refl _)
  exact (hs.trans (fillItems_draws hf)).trans (withAddControl_draws ha)

theorem buildArray_draws (hb : Numbers build) {schema : Json} {c : Control} {n : Node}
    (h : (buildArray ctx build r schema c).Runs p n q) :
    ∃ items, n = .mk (boundedControl ctx r schema c) items ∧ p.Advances q ∧
      (r.inTemplate = false → Draws p q [] items) := by
  obtain ⟨site, items, made, s, -, ht, rfl, s', rfl, h⟩ := runs_buildArray h
  obtain ⟨ha, hd⟩ := buildTuple_draws hb ht
  refine ⟨made, rfl, ?_⟩
  have hn : ∀ m : DataMap, Draws s { s with dataMap := m } items items :=
    fun _ => .of_advances (.of_eq rfl rfl) (List.Subperm.refl _)
  rcases h with ⟨-, rfl, rfl⟩ | ⟨keyword, -, hl⟩
  · exact ⟨ha.trans (hn _).advances, fun ht => (hd ht).trans (hn _)⟩
  · have hl := (hn _).trans (buildList_draws hb hl)
    exact ⟨ha.trans hl.advances, fun ht => (hd ht).trans hl⟩

theorem buildReference_advances (hb : Numbers build) {c made : Control}
    (h : (buildReference ctx build r c).Runs p made q) : p.Advances q ∧ made.id = c.id := by
  obtain ⟨rfl, u, he⟩ := runs_buildReference h
  refine ⟨ensureTemplate_advances hb he, ?_⟩
  simp only [referenceControl]
  split <;> rfl

/-- The node keeps the id of its control, and what it contains has new ids. -/
theorem complete_draws (hb : Numbers build) {schema : Json} {c : Control} {mapped : Mapped Node}
    (h : (complete ctx build r schema c).Runs p mapped q) :
    p.Advances q ∧ (r.inTemplate = false → ∃ items, Draws p q [] items ∧
      (mapped.toList = items ∨ ∃ c', c'.id = c.id ∧ mapped.toList = [.mk c' items])) := by
  rcases runs_complete h with ⟨-, children, hc, rfl⟩ | ⟨-, options, rfl, rfl⟩ | ⟨-, n, hn, rfl⟩ |
      ⟨-, made, hm, rfl⟩
  · obtain ⟨ha, hd⟩ := buildProperties_draws hb hc
    refine ⟨ha, fun ht => ⟨children, hd ht, ?_⟩⟩
    split
    · exact .inl rfl
    · exact .inr ⟨c, rfl, rfl⟩
  · exact ⟨.refl _, fun _ => ⟨[], .refl _ _, .inr ⟨{ c with options }, rfl, rfl⟩⟩⟩
  · obtain ⟨items, rfl, ha, hd⟩ := buildArray_draws hb hn
    exact ⟨ha, fun ht => ⟨items, hd ht, .inr ⟨boundedControl ctx r schema c, rfl, rfl⟩⟩⟩
  · obtain ⟨ha, hid⟩ := buildReference_advances hb hm
    exact ⟨ha, fun _ => ⟨[], .none ha [], .inr ⟨made, hid, rfl⟩⟩⟩

theorem controlFor_id (schema : Json) (type : String) (id : Option Nat) :
    (controlFor ctx r schema type id).id = id := by
  simp only [controlFor, withTitle]
  split <;> rfl

theorem buildSchema_draws (hb : Numbers build) {schema : Json} {type : String}
    {mapped : Mapped Node} (h : (buildSchema ctx build r schema type).Runs p mapped q) :
    p.Advances q ∧ (r.inTemplate = false → Draws p q [] mapped.toList) := by
  obtain ⟨id, s, hs, hc⟩ := runs_buildSchema h
  obtain ⟨ha, hd⟩ := complete_draws hb hc
  have hp : ∀ m : DataMap, p.Advances { s with dataMap := m } := by
    intro m
    rcases hs with ⟨-, -, rfl⟩ | ⟨-, -, rfl⟩
    · exact .of_eq rfl rfl
    · exact ⟨Nat.le_succ _, fun h => h⟩
  refine ⟨(hp _).trans ha, ?_⟩
  intro ht
  obtain ⟨items, hi, hm⟩ := hd ht
  rcases hm with hm | ⟨c', hid, hm⟩
  · rw [hm]
    exact (Draws.none (hp _) []).trans hi
  · rcases hs with ⟨ht', -, -⟩ | ⟨-, rfl, rfl⟩
    · exact absurd (ht ▸ ht') Bool.false_ne_true
    · rw [hm]
      refine hi.wrap (p := p) (hid.trans (controlFor_id ..)) ?_ ?_ <;> rfl

theorem numbers_run : Numbers (run ctx) := by
  refine run_induction (P := Numbers) ?_ ?_
  · intro r p mapped q h
    exact absurd h not_runs_failure
  · intro build hb r p mapped q h
    rcases runs_buildOne h with ⟨rfl, rfl⟩ | ⟨schema, type, -, -, -, hs⟩
    · exact ⟨.refl _, fun _ => .refl _ _⟩
    · exact buildSchema_draws hb hs

end Generate

end SchemaForm
