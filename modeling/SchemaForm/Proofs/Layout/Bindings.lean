/-
Where the items of arrays are bound.

A template that is stored absolute under a name was built at the item of an array that has
the name for its own, so it is bound at the place of the name (`Origin.home`), and so is
every copy of it, wherever it is put.  A relative template starts where it is put.

An item that is copied is therefore bound below its array, but for two ways to go astray
(`Astray`): the name that the array computes for its items is not its own, and the template
of the name is absolute; or the template is relative, and the data pointer of the array that
it continues is not generic.

A control *holds* one right below it when that is bound to its place, further below, or
astray (`Holds`).  In derived nodes all controls hold each other (`Derives.holds`).
-/
import SchemaForm.Proofs.Layout.DataPointers

namespace SchemaForm

open Pointer (ofSegments Written)

/-- The generic form of the segments of a data pointer. -/
def Setup.genericPath (ctx : Setup) (path : List String) : List String :=
  Pointer.genericSegments ctx.resolved.arrays [] path

theorem Setup.generic_ofSegments (ctx : Setup) (path : List String) :
    ctx.generic (ofSegments path) = ofSegments (ctx.genericPath path) :=
  Pointer.toGeneric_ofSegments _ _

theorem Setup.genericPath_concat (ctx : Setup) (path : List String) (segment : String) :
    ctx.genericPath path <+: ctx.genericPath (path ++ [segment]) :=
  Pointer.genericSegments_concat _ _ _ _

namespace Generate

/-- An array that comes up, and a place where its items are bound that need not be below
it. -/
inductive Astray (ctx : Setup) (S : Request → Prop) (l : Library) : String → String → Prop
  /-- The name is not the array's own, and its template was built at the place of the name. -/
  | foreign {r : Request} {name item : String} {t : Template} : Comes ctx S r →
      Takes ctx r name item → (itemSite ctx r).relative = true →
      l.template? name = some t → t.relative = false →
      Astray ctx S l (ctx.generic r.dataPointer) (ctx.generic name)
  /-- The template continues the data pointer of the array, which is not generic. -/
  | raw {r : Request} {name item : String} {t : Template} : Comes ctx S r →
      Takes ctx r name item → ctx.generic r.dataPointer ≠ r.dataPointer →
      l.template? name = some t → t.relative = true →
      Astray ctx S l (ctx.generic r.dataPointer) item

/-- A control is bound to a place, and one right below it is bound there, further
below, or astray. -/
def Holds (ctx : Setup) (S : Request → Prop) (l : Library) (c d : Control) : Prop :=
  ∃ x y, c.dataPointer = some (ofSegments x) ∧ d.dataPointer = some (ofSegments y) ∧
    (x <+: y ∨ c.dataType = some "array" ∧ ∃ site above below, ofSegments x = site ++ above ∧
      ofSegments y = site ++ below ∧ Astray ctx S l above below)

/-- All controls in the node hold those right below them. -/
def Holding (ctx : Setup) (S : Request → Prop) (l : Library) (n : Node) : Prop :=
  ∀ link ∈ n.links, Holds ctx S l link.1 link.2

variable {ctx : Setup} {S : Request → Prop} {l l' : Library} {c d c' d' : Control} {n : Node}
  {ns : List Node} {r : Request} {name item : String} {q : Progress} {goal : Goal} {t : Template}

theorem Astray.mapControls {above below : String} (h : Astray ctx S l above below)
    (f : Control → Control) : Astray ctx S (l.mapControls f) above below := by
  have hstored : ∀ {name t}, l.template? name = some t →
      (l.mapControls f).template? name = some ⟨t.node.map f, t.relative⟩ := by
    intro name t ht
    rw [Library.template?_mapControls, ht]
    rfl
  cases h with
  | foreign hcomes htakes hforeign ht hrel =>
      exact .foreign hcomes htakes hforeign (hstored ht) hrel
  | raw hcomes htakes hraw ht hrel => exact .raw hcomes htakes hraw (hstored ht) hrel

namespace Holds

theorem congr (h : Holds ctx S l c d) (hp : c'.dataPointer = c.dataPointer)
    (ht : c'.dataType = c.dataType) (hd : d'.dataPointer = d.dataPointer) :
    Holds ctx S l c' d' := by
  unfold Holds
  rw [hp, ht, hd]
  exact h

theorem mapControls (h : Holds ctx S l c d) (f : Control → Control) :
    Holds ctx S (l.mapControls f) c d := by
  obtain ⟨x, y, hx, hy, hbelow⟩ := h
  refine ⟨x, y, hx, hy, hbelow.imp_right ?_⟩
  rintro ⟨ht, site, above, below, habove, hbelow, hastray⟩
  exact ⟨ht, site, above, below, habove, hbelow, hastray.mapControls f⟩

/-- What a template continues keeps where the one is to the other. -/
theorem continued (h : Holds ctx S l c d) {site : Site} (hsite : Written site.dataPointer) :
    Holds ctx S l (site.continued c) (site.continued d) := by
  obtain ⟨x, y, hx, hy, hbelow⟩ := h
  obtain ⟨place, hplace⟩ := hsite
  refine ⟨place ++ x, place ++ y, ?_, ?_, ?_⟩
  · rw [Site.continued, hx, hplace, Pointer.ofSegments_append]
    rfl
  · rw [Site.continued, hy, hplace, Pointer.ofSegments_append]
    rfl
  · rcases hbelow with hbelow | ⟨ht, between, above, below, habove, hbelow, hastray⟩
    · exact .inl ((List.prefix_append_right_inj place).mpr hbelow)
    · refine .inr ⟨ht, ofSegments place ++ between, above, below, ?_, ?_, hastray⟩
      · rw [Pointer.ofSegments_append, habove, String.append_assoc]
      · rw [Pointer.ofSegments_append, hbelow, String.append_assoc]

theorem placed (h : Holds ctx S l c d) (t : Template) {site : Site}
    (hsite : Written site.dataPointer) (i j : Nat) :
    Holds ctx S l (t.placedControl site i c) (t.placedControl site j d) := by
  have hid : Holds ctx S l { c with id := some i } { d with id := some j } := h.congr rfl rfl rfl
  unfold Template.placedControl
  cases t.relative with
  | true => exact hid.continued hsite
  | false => exact hid

end Holds

namespace Holding

theorem leaf (c : Control) : Holding ctx S l (.mk c []) := by
  intro link hlink
  rcases Node.mem_links_mk.mp hlink with ⟨n, hn, -⟩ | hlink
  · exact absurd hn List.not_mem_nil
  · exact absurd hlink List.not_mem_nil

/-- A control around nodes that it holds. -/
theorem around (hns : ∀ n ∈ ns, Holding ctx S l n) (hc : ∀ n ∈ ns, Holds ctx S l c n.control) :
    Holding ctx S l (.mk c ns) := by
  intro link hlink
  rcases Node.mem_links_mk.mp hlink with ⟨n, hn, rfl⟩ | hlink
  · exact hc n hn
  · obtain ⟨n, hn, hlink⟩ := Node.mem_linksAll.mp hlink
    exact hns n hn link hlink

/-- What does not touch the binding of a control does not change what it holds. -/
theorem modify (h : Holding ctx S l n) {f : Control → Control}
    (hp : ∀ c, (f c).dataPointer = c.dataPointer) (ht : ∀ c, (f c).dataType = c.dataType) :
    Holding ctx S l (n.modify f) := by
  intro link hlink
  obtain ⟨first, hfirst, hd, hc⟩ := Node.mem_links_modify hlink
  rw [hd]
  cases hc with
  | inl hc => exact hc ▸ h first hfirst
  | inr hc => exact hc ▸ (h first hfirst).congr (hp _) (ht _) rfl

theorem template (h : Holding ctx S l n) (relative : Bool) :
    Holding ctx S l (Template.of (storedNode relative n) relative).node := by
  have hstored : Holding ctx S l (storedNode relative n) := by
    unfold storedNode
    split
    · exact h.modify (fun _ => rfl) fun _ => rfl
    · exact h
  intro link hlink
  rw [Template.of, Node.links_map] at hlink
  obtain ⟨first, hfirst, rfl⟩ := List.mem_map.mp hlink
  exact (hstored first hfirst).congr rfl rfl rfl

theorem place (h : Holding ctx S l t.node) {site : Site} (hsite : Written site.dataPointer)
    (last : Nat) : Holding ctx S l (t.place site last).1 := by
  intro link hlink
  obtain ⟨first, hfirst, i, j, rfl⟩ := Template.mem_links_placeNode _ _ hlink
  exact (h first hfirst).placed t hsite i j

end Holding

/-! ## Templates of names -/

/-- The root of a template is bound where the node that it is made of is. -/
theorem root_dataPointer (relative : Bool) (n : Node) :
    (Template.of (storedNode relative n) relative).node.control.dataPointer =
      n.control.dataPointer := by
  rw [Template.of, Node.control_map]
  unfold storedNode
  split
  · rw [Node.control_modify]
  · rfl

/-- A relative template starts where it is put. -/
theorem TemplateFor.root_relative {r' : Request} {relative : Bool}
    (h : TemplateFor ctx S name relative r') (hrel : relative = true) {F : String → Template → Prop}
    (hn : Derives ctx S F q (.request r') n) :
    (Template.of (storedNode relative n) relative).node.control.dataPointer = some "" := by
  obtain ⟨hempty, -⟩ := h.start hrel
  rw [root_dataPointer, hn.dataPointer, hempty]
  rfl

/-- **Where templates are bound.**  A template that is built absolute for a name is bound at
the place of the name. -/
theorem TemplateFor.root_absolute {r' : Request} {relative : Bool}
    (h : TemplateFor ctx S name relative r') (hrel : relative = false)
    {F : String → Template → Prop} (hn : Derives ctx S F q (.request r') n) :
    (Template.of (storedNode relative n) relative).node.control.dataPointer =
      some (ctx.generic name) := by
  obtain ⟨r, item, -, htakes, hown, hitem, -⟩ := h.home hrel
  rw [root_dataPointer, hn.dataPointer, hitem, htakes.generic_item hown]

/-! ## Derived nodes -/

/-- What is right below a place is below its generic form. -/
theorem genericPath_below (ctx : Setup) (path : List String) (segment : String) :
    ∃ below, ctx.generic (Pointer.child (ofSegments path) segment) = ofSegments below ∧
      ctx.genericPath path <+: below := by
  refine ⟨ctx.genericPath (path ++ [segment]), ?_, ctx.genericPath_concat path segment⟩
  rw [Pointer.child_ofSegments, ctx.generic_ofSegments]

/-- A control holds one that is bound in generic form right below it. -/
theorem holds_child (hr : Written r.dataPointer) {segment : String}
    (hc : c.dataPointer = some (ctx.generic r.dataPointer))
    (hd : d.dataPointer = some (ctx.generic (Pointer.child r.dataPointer segment))) :
    Holds ctx S l c d := by
  obtain ⟨path, hpath⟩ := hr
  rw [hpath] at hc hd
  obtain ⟨below, hbelow, hprefix⟩ := genericPath_below ctx path segment
  rw [ctx.generic_ofSegments] at hc
  exact ⟨_, below, hc, hbelow ▸ hd, .inl hprefix⟩

/-- An array holds what starts at the place of an item, unless its own place is not generic. -/
theorem holds_relative (hcomes : Comes ctx S r) (hr : Written r.dataPointer)
    (htakes : Takes ctx r name item) (ht : l.template? name = some t) (hrel : t.relative = true)
    (hc : c.dataPointer = some (ctx.generic r.dataPointer)) (htype : c.dataType = some "array")
    (hd : d.dataPointer = some item) : Holds ctx S l c d := by
  obtain ⟨path, hpath⟩ := hr
  obtain ⟨segment, hitem⟩ := htakes.item
  have hx : ctx.generic r.dataPointer = ofSegments (ctx.genericPath path) := by
    rw [hpath, ctx.generic_ofSegments]
  have hy : item = ofSegments (path ++ [segment]) := by
    rw [hitem, hpath, Pointer.child_ofSegments]
  refine ⟨_, path ++ [segment], hx ▸ hc, hy ▸ hd, ?_⟩
  by_cases hgeneric : ctx.generic r.dataPointer = r.dataPointer
  · rw [hx, hpath] at hgeneric
    rw [Pointer.ofSegments_injective hgeneric]
    exact .inl (List.prefix_append _ _)
  · refine .inr ⟨htype, "", _, item, ?_, ?_, .raw hcomes htakes hgeneric ht hrel⟩
    · rw [hx, String.empty_append]
    · rw [hy, String.empty_append]

/-- An array holds what is at the place of its items' name, unless that is not its own. -/
theorem holds_absolute (hcomes : Comes ctx S r) (hr : Written r.dataPointer)
    (htakes : Takes ctx r name item) (ht : l.template? name = some t) (hrel : t.relative = false)
    (hname : Written (ctx.generic name))
    (hc : c.dataPointer = some (ctx.generic r.dataPointer)) (htype : c.dataType = some "array")
    (hd : d.dataPointer = some (ctx.generic name)) : Holds ctx S l c d := by
  obtain ⟨path, hpath⟩ := hr
  obtain ⟨segment, hitem⟩ := htakes.item
  obtain ⟨place, hy⟩ := hname
  have hx : ctx.generic r.dataPointer = ofSegments (ctx.genericPath path) := by
    rw [hpath, ctx.generic_ofSegments]
  refine ⟨_, place, hx ▸ hc, hy ▸ hd, ?_⟩
  cases hown : (itemSite ctx r).relative with
  | true =>
      refine .inr ⟨htype, "", _, ctx.generic name, ?_, ?_, .foreign hcomes htakes hown ht hrel⟩
      · rw [hx, String.empty_append]
      · rw [hy, String.empty_append]
  | false =>
      obtain ⟨below, hbelow, hprefix⟩ := genericPath_below ctx path segment
      rw [← htakes.generic_item hown, hitem, hpath, hbelow] at hy
      exact .inl (Pointer.ofSegments_injective hy ▸ hprefix)

/-- An array holds a copy of a template that was built for the name of its items, or it is
astray. -/
theorem holds_copy (hcomes : Comes ctx S r) (hr : Written r.dataPointer)
    (htakes : Takes ctx r name item) (ht : l.template? name = some t)
    (hrelative : t.relative = true → t.node.control.dataPointer = some "")
    (habsolute : t.relative = false → t.node.control.dataPointer = some (ctx.generic name))
    (hname : t.relative = false → Written (ctx.generic name))
    (hc : c.dataPointer = some (ctx.generic r.dataPointer)) (htype : c.dataType = some "array")
    (layout : String) (last : Nat) :
    Holds ctx S l c (t.place ⟨item, layout⟩ last).1.control := by
  obtain ⟨id, hid⟩ := t.control_place ⟨item, layout⟩ last
  rw [hid]
  unfold Template.placedControl
  cases hrel : t.relative with
  | true =>
      have hd : t.node.control.dataPointer.map (item ++ ·) = some item := by
        rw [hrelative hrel, Option.map_some, String.append_empty]
      exact holds_relative hcomes hr htakes ht hrel hc htype hd
  | false => exact holds_absolute hcomes hr htakes ht hrel (hname hrel) hc htype (habsolute hrel)

/-- What holds in a node derived for a goal, which an array with the control of the request
holds, too. -/
def Goal.Holds (ctx : Setup) (S : Request → Prop) (l : Library) : Goal → Node → Prop
  | .request _, n => Holding ctx S l n
  | .property r, n => Holding ctx S l n ∧
      ∃ name, n.control.dataPointer = some (ctx.generic (Pointer.child r.dataPointer name))
  | .item r array, n => Comes ctx S r → array.dataType = some "array" →
      array.dataPointer = some (ctx.generic r.dataPointer) →
      Holding ctx S l n ∧ Generate.Holds ctx S l array n.control

/-- **What controls hold.** -/
theorem Derives.holds (hS : ∀ r, S r → Written r.dataPointer)
    (h : Derives ctx S NoneGiven q goal n) : goal.Holds ctx S q.templates n := by
  have hpasses := (written_reaches ctx).toPasses
  have hwritten : ∀ {r}, Comes ctx S r → Written r.dataPointer :=
    fun hcomes => hcomes.dataPointer hpasses hS
  -- On the derivation, which contains those of the templates that are copied.
  induction h with
  | leaf options ha _ => exact .leaf _
  | object ha _ _ hchildren ih =>
      refine .around (fun n hn => (ih n hn).1) fun n hn => ?_
      obtain ⟨-, name, hname⟩ := ih n hn
      exact holds_child (hwritten ha.comes) ha.dataPointer hname
  | array ha ht _ _ ih =>
      have hitems := fun n hn => ih n hn ha.comes ht ha.dataPointer
      exact .around (fun n hn => (hitems n hn).1) fun n hn => (hitems n hn).2
  | reference ha _ => exact .leaf _
  | property hn ih => exact ⟨ih, _, hn.dataPointer⟩
  | required _ ih =>
      obtain ⟨hholding, name, hname⟩ := ih
      refine ⟨hholding.modify (fun _ => rfl) fun _ => rfl, name, ?_⟩
      rw [Node.control_modify]
      exact hname
  | @fixed r array index n hn ih =>
      intro hcomes _ harray
      have hitem : n.control.dataPointer =
          some (ctx.generic (Pointer.child r.dataPointer (Nat.repr index))) := by
        rw [hn.dataPointer, ← Pointer.item_eq_child]
        rfl
      exact ⟨ih, holds_child (hwritten hcomes) harray hitem⟩
  | @copy r r' array name item relative n last ht hfor hn htakes ih =>
      intro hcomes htype harray
      have hr := hwritten hcomes
      have hname : relative = false → Written (ctx.generic name) := by
        -- The place of the name is that of the item for which the template was built.
        intro hrel
        obtain ⟨home, place, hhome, hplace, hown, -⟩ := hfor.home hrel
        rw [← hplace.generic_item hown]
        exact hpasses.generic _ (hplace.within hpasses (hwritten hhome)).1
      exact ⟨(Holding.template ih relative).place (htakes.within hpasses hr).1 last,
        holds_copy hcomes hr htakes ht (fun hrel => hfor.root_relative hrel hn)
          (fun hrel => hfor.root_absolute hrel hn) hname harray htype _ last⟩
  | given _ _ hgiven _ => exact hgiven.elim
  | @add r array label bounds id =>
      intro hcomes _ harray
      refine ⟨.leaf _, ?_⟩
      obtain ⟨path, hpath⟩ := hwritten hcomes
      have hx : array.dataPointer = some (ofSegments (ctx.genericPath path)) := by
        rw [harray, hpath, ctx.generic_ofSegments]
      refine ⟨_, ctx.genericPath path ++ [Pointer.wildcard], hx, ?_, .inl (List.prefix_append _ _)⟩
      show array.dataPointer.map Pointer.anyItem = _
      rw [hx, Option.map_some, Pointer.anyItem_ofSegments]
  | limited bounds _ _ ih =>
      intro hcomes htype harray
      obtain ⟨hholding, hholds⟩ := ih hcomes htype harray
      refine ⟨hholding.modify (fun _ => rfl) fun _ => rfl, hholds.congr rfl rfl ?_⟩
      rw [Node.control_modify]
      rfl

end Generate

end SchemaForm
