/-
Copies of a template.

To place a template is to walk through its node with a step that gives each control the next id and
continues its pointers from the site (`mapForest_placing`).  What a node contains is walked through
before the node itself, so that the ids of the copy count on from the last one in that order
(`Node.postorder`).  Apart from the ids a copy is the same for every counter: it is the node of the
template with its pointers continued, if the template is relative, and the node itself otherwise
(`place_copies`).
-/
import SchemaForm.Layout.Form
import SchemaForm.Layout.Mapping
import SchemaForm.Proofs.Layout.Numbering
import SchemaForm.Proofs.Pointer.Levels

namespace SchemaForm

namespace Control

/-- The control without its id. -/
def bare (c : Control) : Control := { c with id := none }

/-- The control without its id and its pointers. -/
def unplaced (c : Control) : Control :=
  { c with id := none, dataPointer := none, layoutPointer := "" }

end Control

namespace Node

/-- The node without ids. -/
def bare (n : Node) : Node := n.map Control.bare

/-! ## Contents first -/

mutual

/-- The controls, what a node contains before the node itself. -/
def postorder : Node → List Control
  | mk c items => postorderAll items ++ [c]

def postorderAll : List Node → List Control
  | [] => []
  | n :: rest => postorder n ++ postorderAll rest

end

mutual

theorem length_postorder : ∀ n : Node, n.postorder.length = n.count
  | mk c items => by
      rw [postorder, List.length_append, length_postorderAll items, List.length_singleton, count,
        Nat.add_comm]

theorem length_postorderAll : ∀ ns : List Node, (postorderAll ns).length = countAll ns
  | [] => rfl
  | n :: rest => by
      rw [postorderAll, List.length_append, length_postorder n, length_postorderAll rest, countAll]

end

end Node

/-! ## Sites -/

theorem Pointer.eq_of_dropEnd? {ending text front : String}
    (h : dropEnd? ending text = some front) : text = front ++ ending := by
  obtain ⟨rest, hrest, rfl⟩ := Option.map_eq_some_iff.mp h
  have hreverse := congrArg List.reverse (List.isPrefixOf?_eq_some_iff_append_eq.mp hrest)
  rw [List.reverse_append, List.reverse_reverse, List.reverse_reverse] at hreverse
  rw [← String.toList_inj, String.toList_append, String.toList_ofList, hreverse]

/-- Pointers are continued from the layout pointer of a site without the wildcard that it ends in,
if it does. -/
theorem Site.layoutBase_cases (site : Site) :
    site.layoutPointer = site.layoutBase ++ "/-" ∨
      (∀ base, site.layoutPointer ≠ base ++ "/-") ∧ site.layoutBase = site.layoutPointer := by
  unfold layoutBase Pointer.listOfItem?
  cases hdrop : Pointer.dropEnd? (Pointer.anyItem "") site.layoutPointer with
  | some base => exact .inl (Pointer.eq_of_dropEnd? hdrop)
  | none =>
      refine .inr ⟨fun base he => ?_, rfl⟩
      have hbase : Pointer.dropEnd? "/-" (base ++ "/-") = some base :=
        Pointer.dropEnd?_append base "/-"
      have hanyItem : Pointer.anyItem "" = "/-" := rfl
      rw [he, hanyItem, hbase] at hdrop
      cases hdrop

namespace Template

variable {t : Template} {site : Site}

/-- Where a control is put, but for its id. -/
def sited (t : Template) (site : Site) (c : Control) : Control :=
  if t.relative then site.continued c else c

theorem placedControl_id (t : Template) (site : Site) (id : Nat) (c : Control) :
    (t.placedControl site id c).id = some id := by
  unfold placedControl
  split <;> rfl

theorem bare_placedControl (t : Template) (site : Site) (id : Nat) (c : Control) :
    (t.placedControl site id c).bare = (t.sited site c).bare := by
  unfold placedControl sited
  split <;> rfl

theorem unplaced_placedControl (t : Template) (site : Site) (id : Nat) (c : Control) :
    (t.placedControl site id c).unplaced = c.unplaced := by
  unfold placedControl
  split <;> rfl

theorem pointers_placedControl (t : Template) (site : Site) (id : Nat) (c : Control) :
    ((t.placedControl site id c).dataPointer, (t.placedControl site id c).layoutPointer) =
      ((t.sited site c).dataPointer, (t.sited site c).layoutPointer) := by
  unfold placedControl sited
  split <;> rfl

theorem pointers_sited (t : Template) (site : Site) (c : Control) :
    ((t.sited site c).dataPointer, (t.sited site c).layoutPointer) =
      if t.relative then
        (c.dataPointer.map (site.dataPointer ++ ·), site.layoutBase ++ c.layoutPointer)
      else (c.dataPointer, c.layoutPointer) := by
  unfold sited
  split <;> rfl

/-! ## The counter -/

mutual

theorem placeNode_snd : ∀ (n : Node) (last : Nat), (t.placeNode site last n).2 = last + n.count
  | .mk c items, last => by
      show (t.placeAll site last items).2 + 1 = _
      rw [placeAll_snd items last, Node.count, Nat.add_comm 1, Nat.add_assoc]

theorem placeAll_snd : ∀ (ns : List Node) (last : Nat),
    (t.placeAll site last ns).2 = last + Node.countAll ns
  | [], _ => rfl
  | n :: rest, last => by
      show (t.placeAll site (t.placeNode site last n).2 rest).2 = _
      rw [placeAll_snd rest, placeNode_snd n, Node.countAll, Nat.add_assoc]

end

mutual

/-- The controls of a copy, contents first, are those of the template with the next ids. -/
theorem postorder_placeNode : ∀ (n : Node) (last : Nat), (t.placeNode site last n).1.postorder =
    (n.postorder.zipIdx (last + 1)).map fun p => t.placedControl site p.2 p.1
  | .mk c items, last => by
      show Node.postorderAll (t.placeAll site last items).1 ++
        [t.placedControl site ((t.placeAll site last items).2 + 1) c] = _
      rw [postorderAll_placeAll items last, placeAll_snd items last, Node.postorder,
        List.zipIdx_append, List.map_append, Node.length_postorderAll, Nat.add_right_comm]
      rfl

theorem postorderAll_placeAll : ∀ (ns : List Node) (last : Nat),
    Node.postorderAll (t.placeAll site last ns).1 =
      ((Node.postorderAll ns).zipIdx (last + 1)).map fun p => t.placedControl site p.2 p.1
  | [], _ => rfl
  | n :: rest, last => by
      show (t.placeNode site last n).1.postorder ++
        Node.postorderAll (t.placeAll site (t.placeNode site last n).2 rest).1 = _
      rw [postorder_placeNode n last, postorderAll_placeAll rest, placeNode_snd n,
        Node.postorderAll, List.zipIdx_append, List.map_append, Node.length_postorder,
        Nat.add_right_comm]

end

/-! ## The tree -/

mutual

/-- What a change of controls makes of a copy, if it does not tell the ids. -/
theorem map_placeNode {f g : Control → Control}
    (h : ∀ id c, f (t.placedControl site id c) = g c) :
    ∀ (n : Node) (last : Nat), (t.placeNode site last n).1.map f = n.map g
  | .mk c items, last => by
      show Node.mk (f _) (Node.mapAll f (t.placeAll site last items).1) = _
      rw [h, mapAll_placeAll h items last, Node.map]

theorem mapAll_placeAll {f g : Control → Control}
    (h : ∀ id c, f (t.placedControl site id c) = g c) :
    ∀ (ns : List Node) (last : Nat),
      Node.mapAll f (t.placeAll site last ns).1 = Node.mapAll g ns
  | [], _ => rfl
  | n :: rest, last => by
      show (t.placeNode site last n).1.map f ::
        Node.mapAll f (t.placeAll site (t.placeNode site last n).2 rest).1 = _
      rw [map_placeNode h n last, mapAll_placeAll h rest, Node.mapAll]

end

/-- Copies differ in their ids only. -/
theorem bare_place (t : Template) (site : Site) (last last' : Nat) :
    (t.place site last).1.bare = (t.place site last').1.bare :=
  (map_placeNode (bare_placedControl t site) t.node last).trans
    (map_placeNode (bare_placedControl t site) t.node last').symm

/-! ## The walk -/

/-- Gives a node whose contents are placed the next id, and continues its pointers. -/
def placing (t : Template) (site : Site) : Node.Step (StateM Nat) := fun n _ _ => do
  let last ← get
  set (last + 1)
  return .one (n.modify (t.placedControl site (last + 1)))

mutual

theorem walk_placing (above : String) :
    ∀ (n : Node) (index last : Nat), (n.mapTree (t.placing site) above index).run last =
      (Mapped.one (t.placeNode site last n).1, (t.placeNode site last n).2)
  | .mk c items, index, last => by
      show StateT.run (m := Id) (do
        let mapped ← Node.mapForest (t.placing site) _ 0 items
        t.placing site (.mk c mapped) index _) last = _
      rw [StateT.run_bind, walkAll_placing _ items 0 last]
      rfl

theorem walkAll_placing (above : String) :
    ∀ (ns : List Node) (index last : Nat),
      (Node.mapForest (t.placing site) above index ns).run last = t.placeAll site last ns
  | [], _, _ => rfl
  | n :: rest, index, last => by
      show StateT.run (m := Id) (do
        let nodes := (← n.mapTree (t.placing site) above index).toList
        let more ← Node.mapForest (t.placing site) above (index + nodes.length) rest
        pure (nodes ++ more)) last = _
      rw [StateT.run_bind, walk_placing above n index last]
      show StateT.run (m := Id) (do
        let more ← Node.mapForest (t.placing site) above (index + 1) rest
        pure ([(t.placeNode site last n).1] ++ more)) (t.placeNode site last n).2 = _
      rw [StateT.run_bind, walkAll_placing above rest (index + 1)]
      rfl

end

/-- To place a template is to walk through its node. -/
theorem mapForest_placing (t : Template) (site : Site) (last : Nat) :
    (Node.mapForest (t.placing site) "" 0 [t.node]).run last =
      ([(t.place site last).1], (t.place site last).2) :=
  walkAll_placing "" [t.node] 0 last

/-! ## Copies -/

/-- Instantiating gives a copy and counts on, and changes nothing else. -/
theorem instantiate_run {p : Progress} {name : String}
    (h : p.templates.template? name = some t) : (Build.instantiate name site).run p =
      some (some (t.place site p.lastId).1, { p with lastId := p.lastId + t.node.count }) := by
  have hcount : (t.place site p.lastId).2 = p.lastId + t.node.count := placeNode_snd t.node _
  rw [← hcount]
  exact Build.runs_instantiate.mpr
    (.inr ⟨t, _, h, Build.runs_placed.mpr ⟨rfl, rfl⟩, rfl⟩)

theorem instantiate_form {f : Form} {name : String}
    (h : f.progress.templates.template? name = some t) : f.instantiate name site =
      (some (t.place site f.progress.lastId).1,
        { f with progress := { f.progress with lastId := f.progress.lastId + t.node.count } }) := by
  have hcount : (t.place site f.progress.lastId).2 = f.progress.lastId + t.node.count :=
    placeNode_snd t.node _
  rw [← hcount, Form.instantiate, h]

/-- **Copies of a template.**  A copy is a tree of the shape of the template's node, with the same
controls but for their ids and pointers.  Its ids, contents before their container, are those that
follow the last one, as many as there are nodes.  The pointers are those of the template, if it is
relative behind those of the site, whose layout pointer loses a last wildcard.  Two copies at a site
differ in their ids only, and making one changes nothing but the counter, neither while a layout is
built nor afterwards. -/
theorem place_copies (t : Template) (site : Site) (last : Nat) :
    (t.place site last).1.map Control.unplaced = t.node.map Control.unplaced ∧
      (t.place site last).1.postorder.map Control.id =
        (List.range' (last + 1) t.node.count).map some ∧
      (t.place site last).2 = last + t.node.count ∧
      ((t.place site last).1.postorder.map fun c => (c.dataPointer, c.layoutPointer)) =
        (t.node.postorder.map fun c =>
          if t.relative then
            (c.dataPointer.map (site.dataPointer ++ ·), site.layoutBase ++ c.layoutPointer)
          else (c.dataPointer, c.layoutPointer)) ∧
      (site.layoutPointer = site.layoutBase ++ "/-" ∨
        (∀ base, site.layoutPointer ≠ base ++ "/-") ∧ site.layoutBase = site.layoutPointer) ∧
      (∀ other, (t.place site other).1.bare = (t.place site last).1.bare) ∧
      (∀ (p : Progress) name, p.templates.template? name = some t →
        (Build.instantiate name site).run p =
          some (some (t.place site p.lastId).1, { p with lastId := p.lastId + t.node.count })) ∧
      ∀ (f : Form) name, f.progress.templates.template? name = some t →
        f.instantiate name site = (some (t.place site f.progress.lastId).1,
          { f with progress :=
            { f.progress with lastId := f.progress.lastId + t.node.count } }) := by
  have hpostorder : (t.placeNode site last t.node).1.postorder =
      (t.node.postorder.zipIdx (last + 1)).map fun p => t.placedControl site p.2 p.1 :=
    postorder_placeNode t.node last
  refine ⟨map_placeNode (unplaced_placedControl t site) t.node last, ?_, placeNode_snd t.node last,
    ?_, site.layoutBase_cases, fun other => t.bare_place site other last,
    fun _ _ => instantiate_run, fun _ _ => instantiate_form⟩
  · calc (t.place site last).1.postorder.map Control.id
        = ((t.node.postorder.zipIdx (last + 1)).map Prod.snd).map some := by
          rw [place, hpostorder, List.map_map, List.map_map]
          exact List.map_congr_left fun p _ => placedControl_id t site p.2 p.1
      _ = (List.range' (last + 1) t.node.count).map some := by
          rw [List.zipIdx_map_snd, Node.length_postorder]
  · calc (t.place site last).1.postorder.map (fun c => (c.dataPointer, c.layoutPointer))
        = ((t.node.postorder.zipIdx (last + 1)).map Prod.fst).map
            (fun c => ((t.sited site c).dataPointer, (t.sited site c).layoutPointer)) := by
          rw [place, hpostorder, List.map_map, List.map_map]
          exact List.map_congr_left fun p _ => pointers_placedControl t site p.2 p.1
      _ = _ := by
          rw [List.zipIdx_map_fst]
          exact List.map_congr_left fun c _ => pointers_sited t site c

/-- A node and its name, in an item of a list of the second level. -/
example :
    let node : Node := .mk { dataPointer := some "", layoutPointer := "/-" }
      [.mk { dataPointer := some "/name", layoutPointer := "/-/items/-" } []]
    let copy := (Template.mk node true).place ⟨"/tree/children/-", "/-/items/-/items/-"⟩ 7
    (copy.1.postorder.map fun c => (c.id, c.dataPointer, c.layoutPointer)) =
      [(some 8, some "/tree/children/-/name", "/-/items/-/items/-/items/-"),
        (some 9, some "/tree/children/-", "/-/items/-/items/-")] := by decide

end Template

end SchemaForm
