/-
Where generated nodes stand.

In a generated layout every control has the layout pointer of a depth
(`Control.Levelled`), and every control stands right below its parent, unless it is an
item of an array that crosses (`Lies`).  That happens when the array asks for the template
of a name, and the template is absolute and was built for an array at another depth
(`Foreign`): a copy keeps the layout pointer of the place where the template was built, and
both are moved alike when something around them is copied or gathered.

The names that arrays ask for, and how deep these are, are a parameter `P` here.  Nodes and
templates of which the above holds throughout are upright; it is read off derivations
(`Derives.stands`).  Where a node itself is depends on its request alone, not on the
templates (`Derives.placed`).
-/
import Mathlib.Order.Monotone.Defs
import SchemaForm.Proofs.Layout.Derivation
import SchemaForm.Proofs.Layout.Links

namespace SchemaForm

/-! ## Places of controls -/

/-- What the copies of a control have in common: all but its id, its pointers, its options
and its title map. -/
def Control.core (c : Control) : Control :=
  { c with id := none, dataPointer := none, layoutPointer := "", options := [], titleMap := none }

/-- The second control is laid out right below the first one. -/
def Control.Under (c d : Control) : Prop :=
  d.layoutPointer = Pointer.anyItem (c.layoutPointer ++ "/items")

/-- The template is absolute and was built for an array at one depth, and an array at
another depth asks for its name. -/
structure Foreign (P : String → Nat → Prop) (l : Library) (name : String) (t : Template)
    (built here : Nat) : Prop where
  stored : l.template? name = some t
  absolute : t.relative = false
  level : t.node.control.layoutPointer = Pointer.level (built + 1)
  home : P name built
  asked : P name here
  apart : built ≠ here

/-- The second control is an item of the array, and a copy of the root of a template that
was built at another depth.  Both may have been moved since, as a whole. -/
structure Crosses (P : String → Nat → Prop) (l : Library) (c d : Control) : Prop where
  dataType : c.dataType = some "array"
  foreign : ∃ name t built here, Foreign P l name t built here ∧ d.core = t.node.control.core ∧
    ∃ shift : Nat → Nat, StrictMono shift ∧ c.layoutPointer = Pointer.level (shift here) ∧
      d.layoutPointer = Pointer.level (shift (built + 1))

/-- A control is right below its parent, or it crosses. -/
def Lies (P : String → Nat → Prop) (l : Library) (c d : Control) : Prop :=
  c.Under d ∨ Crosses P l c d

/-- The control has the layout pointer of a depth. -/
def Control.Levelled (c : Control) : Prop := ∃ n, c.layoutPointer = Pointer.level n

/-- A node in which all controls are levelled, and lie where they are to be. -/
structure Node.Upright (P : String → Nat → Prop) (l : Library) (n : Node) : Prop where
  links : ∀ link ∈ n.links, Lies P l link.1 link.2
  controls : ∀ c ∈ n.controls, c.Levelled

/-- An upright template of a name.  A relative one starts at the top, and an absolute one
was built for an array that asked for it. -/
structure Template.Upright (P : String → Nat → Prop) (l : Library) (name : String)
    (t : Template) : Prop where
  node : t.node.Upright P l
  start : t.relative = true → t.node.control.layoutPointer = Pointer.level 0
  home : t.relative = false →
    ∃ built, P name built ∧ t.node.control.layoutPointer = Pointer.level (built + 1)

/-- A change of controls that leaves alone where they are. -/
structure KeepsPlace (f : Control → Control) : Prop where
  layoutPointer : ∀ c, (f c).layoutPointer = c.layoutPointer
  dataType : ∀ c, (f c).dataType = c.dataType

variable {P : String → Nat → Prop} {l l' : Library} {name : String} {c d c' d' : Control}
  {n : Node} {ns : List Node} {t : Template} {f : Control → Control} {built here : Nat}

theorem Foreign.mono (h : Foreign P l name t built here) (hl : l.Keeps l') :
    Foreign P l' name t built here :=
  { h with stored := hl name t h.stored }

theorem Foreign.mapControls (h : Foreign P l name t built here) (hf : KeepsPlace f) :
    Foreign P (l.mapControls f) name ⟨t.node.map f, t.relative⟩ built here := by
  refine ⟨?_, h.absolute, ?_, h.home, h.asked, h.apart⟩
  · rw [Library.template?_mapControls, h.stored]
    rfl
  · rw [Node.control_map, hf.layoutPointer, h.level]

namespace Crosses

theorem mono (h : Crosses P l c d) (hl : l.Keeps l') : Crosses P l' c d := by
  obtain ⟨name, t, built, here, hforeign, hmoved⟩ := h.foreign
  exact ⟨h.dataType, name, t, built, here, hforeign.mono hl, hmoved⟩

theorem congr (h : Crosses P l c d) (ht : c'.dataType = c.dataType)
    (hc : c'.layoutPointer = c.layoutPointer) (hd : d'.layoutPointer = d.layoutPointer)
    (hcore : d'.core = d.core) : Crosses P l c' d' := by
  obtain ⟨name, t, built, here, hforeign, hcopy, shift, hshift, hcl, hdl⟩ := h.foreign
  exact ⟨ht.trans h.dataType, name, t, built, here, hforeign, hcore.trans hcopy, shift, hshift,
    hc.trans hcl, hd.trans hdl⟩

/-- What crosses still does when it is moved. -/
theorem shift (h : Crosses P l c d) (ht : c'.dataType = c.dataType) (hcore : d'.core = d.core)
    {move : Nat → Nat} (hmove : StrictMono move)
    (hc : ∀ m, c.layoutPointer = Pointer.level m → c'.layoutPointer = Pointer.level (move m))
    (hd : ∀ m, d.layoutPointer = Pointer.level m → d'.layoutPointer = Pointer.level (move m)) :
    Crosses P l c' d' := by
  obtain ⟨name, t, built, here, hforeign, hcopy, shift, hshift, hcl, hdl⟩ := h.foreign
  exact ⟨ht.trans h.dataType, name, t, built, here, hforeign, hcore.trans hcopy, move ∘ shift,
    hmove.comp hshift, hc _ hcl, hd _ hdl⟩

/-- A change of all controls that copies do not show turns copies into copies. -/
theorem mapControls (h : Crosses P l c d) (hf : KeepsPlace f)
    (hcore : ∀ c : Control, (f c).core = c.core) : Crosses P (l.mapControls f) (f c) (f d) := by
  obtain ⟨name, t, built, here, hforeign, hcopy, shift, hshift, hcl, hdl⟩ := h.foreign
  refine ⟨(hf.dataType c).trans h.dataType, name, _, built, here, hforeign.mapControls hf, ?_,
    shift, hshift, (hf.layoutPointer c).trans hcl, (hf.layoutPointer d).trans hdl⟩
  rw [Node.control_map, hcore, hcore, hcopy]

/-- What crosses is not right below its array. -/
theorem not_under (h : Crosses P l c d) : ¬c.Under d := by
  obtain ⟨name, t, built, here, hforeign, -, shift, hshift, hc, hd⟩ := h.foreign
  intro hunder
  have hstep : shift (built + 1) = shift here + 1 := by
    rw [Control.Under, hc, hd] at hunder
    exact Pointer.level_injective hunder
  rcases Nat.lt_trichotomy built here with hlt | heq | hgt
  · have hle : shift (built + 1) ≤ shift here := hshift.monotone hlt
    omega
  · exact hforeign.apart heq
  · have hfirst : shift here < shift built := hshift hgt
    have hsecond : shift built < shift (built + 1) := hshift (Nat.lt_succ_self built)
    omega

end Crosses

theorem Lies.mono (h : Lies P l c d) (hl : l.Keeps l') : Lies P l' c d :=
  h.imp_right fun hcrosses => hcrosses.mono hl

theorem Lies.congr (h : Lies P l c d) (hc : c'.layoutPointer = c.layoutPointer)
    (ht : c'.dataType = c.dataType) (hd : d'.layoutPointer = d.layoutPointer)
    (hcore : d'.core = d.core) : Lies P l c' d' := by
  refine h.imp (fun hunder => ?_) fun hcrosses => hcrosses.congr ht hc hd hcore
  unfold Control.Under at hunder ⊢
  rw [hc, hd, hunder]

theorem Control.Levelled.congr (h : c.Levelled) (hl : c'.layoutPointer = c.layoutPointer) :
    c'.Levelled := by
  obtain ⟨n, hn⟩ := h
  exact ⟨n, hl.trans hn⟩

namespace Node.Upright

theorem mono (h : n.Upright P l) (hl : l.Keeps l') : n.Upright P l' :=
  ⟨fun link hlink => (h.links link hlink).mono hl, h.controls⟩

/-- A levelled control around upright nodes that lie where they are to be. -/
theorem around (hc : c.Levelled) (hns : ∀ n ∈ ns, n.Upright P l)
    (hlies : ∀ n ∈ ns, Lies P l c n.control) : (Node.mk c ns).Upright P l := by
  constructor
  · intro link hlink
    rcases Node.mem_links_mk.mp hlink with ⟨child, hchild, rfl⟩ | hlink
    · exact hlies child hchild
    · obtain ⟨n, hn, hlink⟩ := Node.mem_linksAll.mp hlink
      exact (hns n hn).links link hlink
  · intro d hd
    rcases Node.mem_controls_mk.mp hd with rfl | ⟨n, hn, hd⟩
    · exact hc
    · exact (hns n hn).controls d hd

theorem leaf (hc : c.Levelled) : (Node.mk c []).Upright P l :=
  .around hc (fun _ hn => absurd hn List.not_mem_nil) (fun _ hn => absurd hn List.not_mem_nil)

theorem modify (h : n.Upright P l) (hf : KeepsPlace f) : (n.modify f).Upright P l := by
  cases n with
  | mk c items =>
      constructor
      · intro link hlink
        obtain ⟨first, hfirst, hd, hc⟩ := Node.mem_links_modify hlink
        rw [hd]
        cases hc with
        | inl hc => exact hc ▸ h.links first hfirst
        | inr hc =>
            rw [hc]
            exact (h.links first hfirst).congr (hf.layoutPointer _) (hf.dataType _) rfl rfl
      · intro d hd
        rcases Node.mem_controls_modify hd with rfl | hd
        · have hc := h.controls _ (Node.control_mem _)
          exact hc.congr (hf.layoutPointer _)
        · exact h.controls d hd

/-- Every control is changed, and no copy shows it. -/
theorem mapControls (h : n.Upright P l) (hf : KeepsPlace f)
    (hcore : ∀ c : Control, (f c).core = c.core) :
    (n.map f).Upright P (l.mapControls f) := by
  constructor
  · intro link hlink
    rw [Node.links_map] at hlink
    obtain ⟨⟨c, d⟩, hfirst, rfl⟩ := List.mem_map.mp hlink
    refine (h.links _ hfirst).imp (fun hunder => ?_) fun hcrosses => hcrosses.mapControls hf hcore
    unfold Control.Under at hunder ⊢
    exact (hf.layoutPointer d).trans (hunder.trans (by rw [← hf.layoutPointer c]; rfl))
  · intro d hd
    rw [Node.controls_map] at hd
    obtain ⟨c, hc, rfl⟩ := List.mem_map.mp hd
    exact (h.controls c hc).congr (hf.layoutPointer c)

end Node.Upright

theorem setOption_keepsPlace (key : String) (value : Json) :
    KeepsPlace (·.setOption key value) :=
  ⟨fun _ => rfl, fun _ => rfl⟩

/-! ## Copies -/

/-- What a site adds to a depth. -/
theorem Site.layoutBase_level {site : Site} {m : Nat} (h : site.layoutPointer = Pointer.level m)
    (k : Nat) : site.layoutBase ++ Pointer.level k = Pointer.level (m + k) := by
  have hbase : ∀ pointer, Pointer.level m = Pointer.anyItem pointer →
      site.layoutBase = pointer := by
    intro pointer hp
    rw [Site.layoutBase, h, hp, Pointer.listOfItem?_anyItem]
    rfl
  cases m with
  | zero => rw [hbase "" rfl, String.empty_append, Nat.zero_add]
  | succ m =>
      have hsplit : m + 1 + k = m + (k + 1) := by omega
      rw [hbase _ rfl, hsplit, Pointer.level_add, Pointer.descent, String.append_assoc]

namespace Template

variable {site : Site} {m : Nat}

theorem of_upright {relative : Bool} (h : n.Upright P l) :
    (of n relative).node.Upright P l := by
  constructor
  · intro link hlink
    rw [of, Node.links_map] at hlink
    obtain ⟨first, hfirst, rfl⟩ := List.mem_map.mp hlink
    exact (h.links first hfirst).congr rfl rfl rfl rfl
  · intro d hd
    rw [of, Node.controls_map] at hd
    obtain ⟨c, hc, rfl⟩ := List.mem_map.mp hd
    exact (h.controls c hc).congr rfl

theorem of_layoutPointer (n : Node) (relative : Bool) :
    (of n relative).node.control.layoutPointer = n.control.layoutPointer := by
  rw [of, Node.control_map]

theorem placedControl_core (t : Template) (site : Site) (id : Nat) (c : Control) :
    (t.placedControl site id c).core = c.core := by
  unfold placedControl
  split <;> rfl

/-- Copies of relative templates are moved to their sites. -/
theorem placedControl_level (t : Template) (hrel : t.relative = true)
    (hl : site.layoutPointer = Pointer.level m) (id : Nat) {k : Nat}
    (hc : c.layoutPointer = Pointer.level k) :
    (t.placedControl site id c).layoutPointer = Pointer.level (m + k) := by
  rw [placedControl, if_pos hrel, ← Site.layoutBase_level hl, ← hc]
  rfl

theorem placedControl_levelled (t : Template) (hc : c.Levelled)
    (hl : site.layoutPointer = Pointer.level m) (id : Nat) :
    (t.placedControl site id c).Levelled := by
  obtain ⟨k, hk⟩ := hc
  cases hrel : t.relative with
  | true => exact ⟨m + k, t.placedControl_level hrel hl id hk⟩
  | false =>
      rw [placedControl, hrel, if_neg Bool.false_ne_true]
      exact ⟨k, hk⟩

theorem placedControl_lies (t : Template) (h : Lies P l c d)
    (hl : site.layoutPointer = Pointer.level m) (i j : Nat) :
    Lies P l (t.placedControl site i c) (t.placedControl site j d) := by
  cases hrel : t.relative with
  | false =>
      rw [placedControl, placedControl, hrel, if_neg Bool.false_ne_true,
        if_neg Bool.false_ne_true]
      exact h.congr rfl rfl rfl rfl
  | true =>
      refine h.imp (fun hunder => ?_) fun hcrosses => ?_
      · unfold Control.Under at hunder ⊢
        rw [placedControl, placedControl, if_pos hrel, if_pos hrel]
        show site.layoutBase ++ d.layoutPointer = _
        rw [hunder, ← Pointer.anyItem_append, ← String.append_assoc]
        rfl
      · have htype : (t.placedControl site i c).dataType = c.dataType := by
          rw [placedControl, if_pos hrel]
          rfl
        exact hcrosses.shift htype (t.placedControl_core site j d)
          (fun _ _ hlt => Nat.add_lt_add_left hlt m)
          (fun _ hc => t.placedControl_level hrel hl i hc)
          fun _ hd => t.placedControl_level hrel hl j hd

/-- A copy of an upright template is upright. -/
theorem Upright.place (ht : t.Upright P l name) (site : Site)
    (hl : site.layoutPointer = Pointer.level m) (last : Nat) :
    (t.place site last).1.Upright P l := by
  constructor
  · intro link hlink
    obtain ⟨first, hfirst, i, j, rfl⟩ := mem_links_placeNode _ _ hlink
    exact t.placedControl_lies (ht.node.links first hfirst) hl i j
  · intro c hc
    obtain ⟨first, hfirst, id, rfl⟩ := mem_controls_placeNode _ _ hc
    exact t.placedControl_levelled (ht.node.controls first hfirst) hl id

/-- A copy of a relative template is at its site, and one of an absolute template is where
the template is, and a copy of its root. -/
theorem Upright.place_root (ht : t.Upright P l name) (site : Site)
    (hl : site.layoutPointer = Pointer.level m) (last : Nat) :
    (t.relative = true ∧ (t.place site last).1.control.layoutPointer = Pointer.level m) ∨
      t.relative = false ∧
        (t.place site last).1.control.layoutPointer = t.node.control.layoutPointer ∧
        (t.place site last).1.control.core = t.node.control.core := by
  obtain ⟨id, hid⟩ := t.control_place site last
  rw [hid, placedControl_core]
  cases hrel : t.relative with
  | true => exact .inl ⟨rfl, t.placedControl_level hrel hl id (ht.start hrel)⟩
  | false =>
      refine .inr ⟨rfl, ?_, rfl⟩
      rw [placedControl, hrel, if_neg Bool.false_ne_true]

/-- A copy of the stored template of a name lies in an array that asks for it. -/
theorem Upright.place_stored (ht : t.Upright P l name) (hstored : l.template? name = some t)
    {array : Control} (htype : array.dataType = some "array")
    (harray : array.layoutPointer = Pointer.level m) (hasked : P name m) (site : Site)
    (hl : site.layoutPointer = Pointer.level (m + 1)) (last : Nat) :
    Lies P l array (t.place site last).1.control := by
  have hunder : (t.place site last).1.control.layoutPointer = Pointer.level (m + 1) →
      array.Under (t.place site last).1.control := by
    intro hlevel
    rw [Control.Under, hlevel, harray]
    rfl
  rcases ht.place_root site hl last with ⟨-, hlevel⟩ | ⟨hrel, hroot, hcore⟩
  · exact .inl (hunder hlevel)
  · obtain ⟨built, hhome, hbuilt⟩ := ht.home hrel
    by_cases hsame : built = m
    · subst hsame
      exact .inl (hunder (hroot.trans hbuilt))
    · exact .inr ⟨htype, name, t, built, m, ⟨hstored, hrel, hbuilt, hhome, hasked, hsame⟩, hcore,
        id, strictMono_id, harray, hroot.trans hbuilt⟩

end Template

/-! ## Whole layouts -/

namespace Compose

theorem topControl_keepsPlace (ctx : Setup) : KeepsPlace (topControl ctx) := by
  refine ⟨fun c => ?_, fun c => ?_⟩
  all_goals
    unfold topControl
    split <;> rfl

theorem topControl_dataPointer (ctx : Setup) (c : Control) :
    (topControl ctx c).dataPointer = c.dataPointer := by
  unfold topControl
  split <;> rfl

theorem withTitleMap_eq (flat : Bool) (c : Control) :
    ∃ titleMap, withTitleMap flat c = { c with titleMap } := by
  unfold withTitleMap
  split
  · exact ⟨c.titleMap, rfl⟩
  · exact ⟨_, rfl⟩

/-- What does not depend on the title map is the same with a title map. -/
theorem withTitleMap_same {α : Type} (g : Control → α)
    (hg : ∀ c titleMap, g { c with titleMap } = g c) (flat : Bool) (c : Control) :
    g (withTitleMap flat c) = g c := by
  obtain ⟨titleMap, h⟩ := withTitleMap_eq flat c
  rw [h, hg]

theorem withTitleMap_keepsPlace (flat : Bool) : KeepsPlace (withTitleMap flat) :=
  ⟨withTitleMap_same (·.layoutPointer) (fun _ _ => rfl) flat,
    withTitleMap_same (·.dataType) (fun _ _ => rfl) flat⟩

end Compose

/-! ## Derived nodes -/

namespace Generate

variable {ctx : Setup} {S : Request → Prop} {F : String → Template → Prop} {q : Progress}
  {goal : Goal} {r : Request} {schema : Json} {array : Control}

/-- Where a node derived for a goal is. -/
def Goal.Placed : Goal → Node → Prop
  | .request r, n => n.control.layoutPointer = r.layout
  | .property r, n => r.Levelled → n.control.layoutPointer = childLayout r r.layout
  | .item _ _, _ => True

theorem referenceControl_layoutPointer (ctx : Setup) (r : Request) (c : Control) (name : String) :
    (referenceControl ctx r c name).layoutPointer = c.layoutPointer := by
  simp only [referenceControl]
  split <;> rfl

/-- A node is where its goal says, whatever the templates are. -/
theorem Derives.placed (h : Derives ctx S F q goal n) : goal.Placed n := by
  induction h with
  | leaf options ha _ => exact ha.layoutPointer
  | object ha _ _ _ _ => exact ha.layoutPointer
  | array ha _ _ _ _ => exact ha.layoutPointer
  | reference ha _ => exact (referenceControl_layoutPointer _ _ _ _).trans ha.layoutPointer
  | @property r name n _ ih =>
      intro hr
      obtain ⟨m, hm⟩ := hr
      obtain ⟨k, hk⟩ := childLayout_level hm
      have hlayout : n.control.layoutPointer = _ := ih
      exact hlayout.trans ((layout_of_level hk).trans hk.symm)
  | required _ ih =>
      intro hr
      rw [Node.control_modify]
      exact ih hr
  | fixed _ _ => trivial
  | copy _ _ _ _ _ _ => trivial
  | given _ _ _ _ => trivial
  | add _ _ _ => trivial
  | limited _ _ _ _ => trivial

/-- The arrays that come up ask for the names at their depths. -/
def Asks (ctx : Setup) (S : Request → Prop) (P : String → Nat → Prop) : Prop :=
  ∀ r name item m, Comes ctx S r → Takes ctx r name item → r.layout = Pointer.level m → P name m

/-- What a node derived for a goal is like: it is upright, and an item lies in its
array. -/
def Goal.Stands (ctx : Setup) (S : Request → Prop) (P : String → Nat → Prop) (l : Library) :
    Goal → Node → Prop
  | .request _, n => n.Upright P l
  | .property _, n => n.Upright P l
  | .item r array, n => Comes ctx S r → array.dataType = some "array" →
      array.layoutPointer = r.layout → n.Upright P l ∧ Lies P l array n.control

theorem storedNode_upright {relative : Bool} (h : n.Upright P l) :
    (Template.of (storedNode relative n) relative).node.Upright P l := by
  refine Template.of_upright ?_
  unfold storedNode
  split
  · exact h.modify ⟨fun _ => rfl, fun _ => rfl⟩
  · exact h

theorem storedNode_layoutPointer (relative : Bool) (n : Node) :
    (Template.of (storedNode relative n) relative).node.control.layoutPointer =
      n.control.layoutPointer := by
  rw [Template.of_layoutPointer]
  unfold storedNode
  split
  · rw [Node.control_modify]
  · rfl

/-- The template of an upright node is upright. -/
theorem Derives.template (hS : ∀ r, S r → r.Levelled) (hP : Asks ctx S P) {relative : Bool}
    (h : Derives ctx S F q (.request r) n) (hn : n.Upright P l)
    (hr : TemplateFor ctx S name relative r) :
    (Template.of (storedNode relative n) relative).Upright P l name := by
  have hroot : (Template.of (storedNode relative n) relative).node.control.layoutPointer =
      r.layout := (storedNode_layoutPointer relative n).trans h.placed
  refine ⟨storedNode_upright hn, fun hrel => ?_, fun hrel => ?_⟩
  · obtain ⟨-, hempty⟩ := hr.start hrel
    rw [hroot, layout_of_empty hempty]
  · obtain ⟨home, item, hcomes, htakes, -, -, hlayout⟩ := hr.home hrel
    obtain ⟨m, hm⟩ := hcomes.levelled hS
    refine ⟨m, hP _ _ _ _ hcomes htakes hm, ?_⟩
    rw [hroot, layout_of_level (hlayout.trans (itemSite_layout ctx hm))]

/-- An item of an array that is a copy is upright, and lies in the array. -/
theorem place_stands (hS : ∀ r, S r → r.Levelled) (hP : Asks ctx S P) {item : String}
    (ht : t.Upright P l name) (hstored : l.template? name = some t) (hr : Comes ctx S r)
    (htakes : Takes ctx r name item) (htype : array.dataType = some "array")
    (harray : array.layoutPointer = r.layout) (last : Nat) :
    (t.place ⟨item, (itemSite ctx r).layout⟩ last).1.Upright P l ∧
      Lies P l array (t.place ⟨item, (itemSite ctx r).layout⟩ last).1.control := by
  obtain ⟨m, hm⟩ := hr.levelled hS
  let site : Site := ⟨item, (itemSite ctx r).layout⟩
  have hsite : site.layoutPointer = Pointer.level (m + 1) := itemSite_layout ctx hm
  exact ⟨ht.place site hsite last, ht.place_stored hstored htype (harray.trans hm)
    (hP _ _ _ _ hr htakes hm) site hsite last⟩

/-- A control with the layout pointer of the control of a request is levelled. -/
theorem Answers.levelled (h : Answers ctx S r schema c) (hS : ∀ r, S r → r.Levelled)
    (hd : d.layoutPointer = c.layoutPointer) : d.Levelled := by
  obtain ⟨m, hm⟩ := h.comes.levelled hS
  exact ⟨m, hd.trans (h.layoutPointer.trans hm)⟩

/-- **Where derived nodes stand.** -/
theorem Derives.stands (hS : ∀ r, S r → r.Levelled) (hP : Asks ctx S P)
    (hF : ∀ name t, F name t → t.Upright P q.templates name)
    (h : Derives ctx S F q goal n) : goal.Stands ctx S P q.templates n := by
  -- On the derivation, which contains those of the templates that are copied.
  induction h with
  | leaf options ha _ => exact .leaf (ha.levelled hS rfl)
  | @object r schema c children ha _ hroot hchildren ih =>
      refine .around (ha.levelled hS rfl) ih fun n hn => .inl ?_
      have hchild := (hchildren n hn).placed (ha.comes.levelled hS)
      rw [Control.Under, hchild, childLayout, hroot, ha.layoutPointer]
      rfl
  | @array r schema c items ha ht _ _ ih =>
      have hlayout : (boundedControl ctx r schema c).layoutPointer = r.layout := ha.layoutPointer
      have hitems := fun n hn => ih n hn ha.comes ht hlayout
      exact .around (ha.levelled hS rfl) (fun n hn => (hitems n hn).1) fun n hn => (hitems n hn).2
  | reference ha _ => exact .leaf (ha.levelled hS (referenceControl_layoutPointer _ _ _ _))
  | property _ ih => exact ih
  | required _ ih => exact Node.Upright.modify ih (setOption_keepsPlace _ _)
  | @fixed r array index n hn ih =>
      intro hr _ harray
      obtain ⟨m, hm⟩ := hr.levelled hS
      have hlevel : (tupleRequest r (itemSite ctx r) index).layout = Pointer.level (m + 1) :=
        layout_of_level (itemSite_layout ctx hm)
      have hlayout : n.control.layoutPointer = _ := hn.placed
      refine ⟨ih, .inl ?_⟩
      rw [Control.Under, hlayout, hlevel, harray, hm]
      rfl
  | copy last ht hr' hn htakes ih =>
      intro hr htype harray
      exact place_stands hS hP (hn.template hS hP ih hr') ht hr htakes htype harray last
  | given last ht ht' htakes =>
      intro hr htype harray
      exact place_stands hS hP (hF _ _ ht') ht hr htakes htype harray last
  | @add r array label bounds id =>
      intro hr _ harray
      obtain ⟨m, hm⟩ := hr.levelled hS
      refine ⟨.leaf ⟨m + 1, ?_⟩, .inl rfl⟩
      show Pointer.anyItem (array.layoutPointer ++ "/items") = _
      rw [harray, hm]
      rfl
  | @limited r array n bounds _ _ ih =>
      intro hr htype harray
      obtain ⟨hn, hlies⟩ := ih hr htype harray
      refine ⟨hn.modify ⟨fun _ => rfl, fun _ => rfl⟩, ?_⟩
      rw [Node.control_modify]
      exact hlies.congr rfl rfl rfl rfl

theorem Origin.upright (hS : ∀ r, S r → r.Levelled) (hP : Asks ctx S P)
    (hF : ∀ name t, F name t → t.Upright P q.templates name)
    (h : Origin ctx S F q name t) : t.Upright P q.templates name := by
  rcases h with ht | ⟨r, relative, n, hr, hn, rfl⟩
  · exact hF name t ht
  · exact hn.template hS hP (hn.stands hS hP hF) hr

end Generate

end SchemaForm
