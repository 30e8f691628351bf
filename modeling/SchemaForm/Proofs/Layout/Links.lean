/-
Controls in layouts, and parents and children.

`Node.controls` lists the controls of a node, and `Node.links` pairs each of them with
the controls right below it.  What changes controls one by one changes both lists so, and
a copy of a template has the controls and the pairs of the template as they stand at the
site.
-/
import SchemaForm.Layout.Context

namespace SchemaForm

namespace Node

mutual

/-- The pairs of a control and a control right below it, in a node at any depth. -/
def links : Node → List (Control × Control)
  | mk c items => (items.map fun n => (c, n.control)) ++ linksAll items

def linksAll : List Node → List (Control × Control)
  | [] => []
  | n :: rest => links n ++ linksAll rest

end

variable {n : Node} {ns ms : List Node} {link : Control × Control} {c d : Control}

/-! ## Controls -/

theorem controlsAll_append (ns ms : List Node) :
    controlsAll (ns ++ ms) = controlsAll ns ++ controlsAll ms := by
  induction ns with
  | nil => rfl
  | cons n ns ih => simp [controlsAll, ih]

theorem mem_controlsAll : c ∈ controlsAll ns ↔ ∃ n ∈ ns, c ∈ n.controls := by
  induction ns with
  | nil => simp [controlsAll]
  | cons n ns ih => simp [controlsAll, ih]

theorem mem_controls_mk : c ∈ (mk d ns).controls ↔ c = d ∨ ∃ n ∈ ns, c ∈ n.controls := by
  rw [controls, List.mem_cons, mem_controlsAll]

theorem control_mem (n : Node) : n.control ∈ n.controls := by
  cases n
  exact List.mem_cons_self

theorem mem_controls_modify {f : Control → Control} (h : c ∈ (n.modify f).controls) :
    c = f n.control ∨ c ∈ n.controls := by
  cases n with
  | mk d items =>
      rcases mem_controls_mk.mp h with rfl | hitems
      · exact .inl rfl
      · exact .inr (mem_controls_mk.mpr (.inr hitems))

mutual

theorem controls_map (f : Control → Control) : ∀ n : Node, controls (map f n) = (controls n).map f
  | mk c items => by simp [map, controls, controlsAll_mapAll f items]

theorem controlsAll_mapAll (f : Control → Control) :
    ∀ ns : List Node, controlsAll (mapAll f ns) = (controlsAll ns).map f
  | [] => rfl
  | n :: ns => by simp [mapAll, controlsAll, controls_map f n, controlsAll_mapAll f ns]

end

/-! ## Parents and children -/

theorem linksAll_eq (ns : List Node) : linksAll ns = ns.flatMap links := by
  induction ns with
  | nil => rfl
  | cons n ns ih => rw [linksAll, ih, List.flatMap_cons]

theorem mem_linksAll : link ∈ linksAll ns ↔ ∃ n ∈ ns, link ∈ n.links := by
  rw [linksAll_eq, List.mem_flatMap]

theorem mem_links_mk {c : Control} :
    link ∈ (mk c ns).links ↔ (∃ n ∈ ns, link = (c, n.control)) ∨ link ∈ linksAll ns := by
  rw [links, List.mem_append, List.mem_map]
  constructor
  · rintro (⟨n, hn, rfl⟩ | h)
    · exact .inl ⟨n, hn, rfl⟩
    · exact .inr h
  · rintro (⟨n, hn, rfl⟩ | h)
    · exact .inl ⟨n, hn, rfl⟩
    · exact .inr h

mutual

theorem controls_of_link : ∀ {n : Node}, link ∈ n.links →
    link.1 ∈ n.controls ∧ link.2 ∈ n.controls
  | mk c items, h => by
      rcases mem_links_mk.mp h with ⟨child, hchild, rfl⟩ | hlink
      · exact ⟨mem_controls_mk.mpr (.inl rfl),
          mem_controls_mk.mpr (.inr ⟨child, hchild, control_mem child⟩)⟩
      · obtain ⟨hc, hd⟩ := controls_of_linkAll hlink
        exact ⟨mem_controls_mk.mpr (.inr (mem_controlsAll.mp hc)),
          mem_controls_mk.mpr (.inr (mem_controlsAll.mp hd))⟩

theorem controls_of_linkAll : ∀ {ns : List Node}, link ∈ linksAll ns →
    link.1 ∈ controlsAll ns ∧ link.2 ∈ controlsAll ns
  | [], h => absurd h List.not_mem_nil
  | n :: ns, h => by
      cases List.mem_append.mp h with
      | inl h =>
          obtain ⟨hc, hd⟩ := controls_of_link h
          exact ⟨List.mem_append_left _ hc, List.mem_append_left _ hd⟩
      | inr h =>
          obtain ⟨hc, hd⟩ := controls_of_linkAll h
          exact ⟨List.mem_append_right _ hc, List.mem_append_right _ hd⟩

end

theorem control_modify (f : Control → Control) (n : Node) :
    (n.modify f).control = f n.control := by
  cases n
  rfl

theorem control_map (f : Control → Control) (n : Node) : (n.map f).control = f n.control := by
  cases n
  rfl

theorem mem_links_modify {f : Control → Control} (h : link ∈ (n.modify f).links) :
    ∃ first ∈ n.links, link.2 = first.2 ∧ (link.1 = first.1 ∨ link.1 = f first.1) := by
  cases n with
  | mk c items =>
      rcases mem_links_mk.mp h with ⟨child, hchild, rfl⟩ | hlink
      · exact ⟨(c, child.control), mem_links_mk.mpr (.inl ⟨child, hchild, rfl⟩), rfl, .inr rfl⟩
      · exact ⟨link, mem_links_mk.mpr (.inr hlink), rfl, .inl rfl⟩

theorem mapAll_eq_map (f : Control → Control) (ns : List Node) : mapAll f ns = ns.map (map f) := by
  induction ns with
  | nil => rfl
  | cons n ns ih => rw [mapAll, ih, List.map_cons]

mutual

theorem links_map (f : Control → Control) :
    ∀ n : Node, (n.map f).links = n.links.map (Prod.map f f)
  | mk c items => by
      rw [map, links, links, List.map_append, linksAll_mapAll f items, List.map_map]
      congr 1
      induction items with
      | nil => rfl
      | cons n items ih => rw [mapAll, List.map_cons, List.map_cons, control_map, ih]; rfl

theorem linksAll_mapAll (f : Control → Control) :
    ∀ ns : List Node, linksAll (mapAll f ns) = (linksAll ns).map (Prod.map f f)
  | [] => rfl
  | n :: ns => by
      rw [mapAll, linksAll, linksAll, List.map_append, links_map f n, linksAll_mapAll f ns]

end

end Node

namespace Template

variable {t : Template} {site : Site} {link : Control × Control} {c : Control}

theorem control_placeNode (last : Nat) (n : Node) :
    ∃ id, (t.placeNode site last n).1.control = t.placedControl site id n.control := by
  cases n
  exact ⟨_, rfl⟩

theorem control_place (t : Template) (site : Site) (last : Nat) :
    ∃ id, (t.place site last).1.control = t.placedControl site id t.node.control :=
  control_placeNode last t.node

mutual

theorem mem_controls_placeNode :
    ∀ (n : Node) (last : Nat), c ∈ (t.placeNode site last n).1.controls →
      ∃ first ∈ n.controls, ∃ id, c = t.placedControl site id first
  | .mk d items, last, h => by
      rcases List.mem_cons.mp h with rfl | h
      · exact ⟨d, List.mem_cons_self, _, rfl⟩
      · obtain ⟨first, hfirst, hplaced⟩ := mem_controls_placeAll items last h
        exact ⟨first, List.mem_cons_of_mem _ hfirst, hplaced⟩

theorem mem_controls_placeAll :
    ∀ (ns : List Node) (last : Nat), c ∈ Node.controlsAll (t.placeAll site last ns).1 →
      ∃ first ∈ Node.controlsAll ns, ∃ id, c = t.placedControl site id first
  | [], _, h => absurd h List.not_mem_nil
  | n :: rest, last, h => by
      cases List.mem_append.mp h with
      | inl h =>
          obtain ⟨first, hfirst, hplaced⟩ := mem_controls_placeNode n last h
          exact ⟨first, List.mem_append_left _ hfirst, hplaced⟩
      | inr h =>
          obtain ⟨first, hfirst, hplaced⟩ := mem_controls_placeAll rest _ h
          exact ⟨first, List.mem_append_right _ hfirst, hplaced⟩

end

mutual

/-- Every control has a copy. -/
theorem placed_mem_placeNode (t : Template) (site : Site) :
    ∀ (n : Node) (last : Nat), c ∈ n.controls →
      ∃ id, t.placedControl site id c ∈ (t.placeNode site last n).1.controls
  | .mk d items, last, h => by
      rcases List.mem_cons.mp h with rfl | h
      · exact ⟨_, List.mem_cons_self⟩
      · obtain ⟨id, hid⟩ := placed_mem_placeAll t site items last h
        exact ⟨id, List.mem_cons_of_mem _ hid⟩

theorem placed_mem_placeAll (t : Template) (site : Site) :
    ∀ (ns : List Node) (last : Nat), c ∈ Node.controlsAll ns →
      ∃ id, t.placedControl site id c ∈ Node.controlsAll (t.placeAll site last ns).1
  | [], _, h => absurd h List.not_mem_nil
  | n :: rest, last, h => by
      cases List.mem_append.mp h with
      | inl h =>
          obtain ⟨id, hid⟩ := placed_mem_placeNode t site n last h
          exact ⟨id, List.mem_append_left _ hid⟩
      | inr h =>
          obtain ⟨id, hid⟩ := placed_mem_placeAll t site rest _ h
          exact ⟨id, List.mem_append_right _ hid⟩

end

mutual

theorem mem_links_placeNode :
    ∀ (n : Node) (last : Nat), link ∈ (t.placeNode site last n).1.links →
      ∃ first ∈ n.links, ∃ i j,
        link = (t.placedControl site i first.1, t.placedControl site j first.2)
  | .mk c items, last, h => by
      rcases Node.mem_links_mk.mp h with ⟨child, hchild, rfl⟩ | hlink
      · obtain ⟨n, hn, j, hj⟩ := mem_placeAll items last hchild
        exact ⟨(c, n.control), Node.mem_links_mk.mpr (.inl ⟨n, hn, rfl⟩), _, j, by rw [hj]⟩
      · obtain ⟨first, hfirst, hplaced⟩ := mem_links_placeAll items last hlink
        exact ⟨first, Node.mem_links_mk.mpr (.inr hfirst), hplaced⟩

theorem mem_links_placeAll :
    ∀ (ns : List Node) (last : Nat), link ∈ Node.linksAll (t.placeAll site last ns).1 →
      ∃ first ∈ Node.linksAll ns, ∃ i j,
        link = (t.placedControl site i first.1, t.placedControl site j first.2)
  | [], _, h => absurd h List.not_mem_nil
  | n :: rest, last, h => by
      cases List.mem_append.mp h with
      | inl h =>
          obtain ⟨first, hfirst, hplaced⟩ := mem_links_placeNode n last h
          exact ⟨first, List.mem_append_left _ hfirst, hplaced⟩
      | inr h =>
          obtain ⟨first, hfirst, hplaced⟩ := mem_links_placeAll rest _ h
          exact ⟨first, List.mem_append_right _ hfirst, hplaced⟩

theorem mem_placeAll {child : Node} :
    ∀ (ns : List Node) (last : Nat), child ∈ (t.placeAll site last ns).1 →
      ∃ n ∈ ns, ∃ id, child.control = t.placedControl site id n.control
  | [], _, h => absurd h List.not_mem_nil
  | n :: rest, last, h => by
      rcases List.mem_cons.mp h with rfl | h
      · exact ⟨n, List.mem_cons_self, control_placeNode last n⟩
      · obtain ⟨m, hm, hplaced⟩ := mem_placeAll rest _ h
        exact ⟨m, List.mem_cons_of_mem _ hm, hplaced⟩

end

end Template

end SchemaForm
