/-
Adding items.

A control that stands for an item still to be added names a template, and adding puts a
copy of that template where the control is.  A template is stored once for all arrays that
ask for its name.  A relative one starts where it is put.  One that is stored absolute is
bound at the place of the name, and laid out where an array that has the name for its own
has its items (`Form.template_home`).  So what is added stands at its control

    unless the place of the name is another one than the control's, an array that has the
    name for its own is at another depth, or something within the template has strayed

(`Form.added_at`, `Form.Misled`).  Without references that cannot happen: then every
control with a reference adds an item to an array with a name of its own
(`Setup.Unreferenced.adds`), and arrays with the same name are at the same depth.
-/
import SchemaForm.Proofs.Layout.Containment

namespace SchemaForm

open Pointer (ofSegments)

namespace Node

/-- Every control is bound to the place of its parent or below. -/
def Descends (n : Node) : Prop :=
  ∀ link ∈ n.links, ∃ x y, link.1.dataPointer = some (ofSegments x) ∧
    link.2.dataPointer = some (ofSegments y) ∧ x <+: y

theorem Descends.child {c : Control} {ns : List Node} {n : Node} (h : (mk c ns).Descends)
    (hn : n ∈ ns) : (∃ x y, c.dataPointer = some (ofSegments x) ∧
      n.control.dataPointer = some (ofSegments y) ∧ x <+: y) ∧ n.Descends :=
  ⟨h _ (mem_links_mk.mpr (.inl ⟨n, hn, rfl⟩)),
    fun link hlink => h link (mem_links_mk.mpr (.inr (mem_linksAll.mpr ⟨n, hn, hlink⟩)))⟩

mutual

/-- Then all controls are bound to the place of the node or below. -/
theorem Descends.below : ∀ {n : Node} {path : List String}, n.Descends →
    n.control.dataPointer = some (ofSegments path) →
    ∀ c ∈ n.controls, ∃ more, c.dataPointer = some (ofSegments (path ++ more))
  | mk d items, path, h, hd, c, hc => by
      rcases List.mem_cons.mp hc with rfl | hc
      · exact ⟨[], by rw [List.append_nil]; exact hd⟩
      · refine Descends.belowAll (fun n hn => ?_) c hc
        obtain ⟨⟨x, y, hx, hy, more, rfl⟩, hbelow⟩ := h.child hn
        obtain rfl := Pointer.ofSegments_injective (Option.some.inj (hx.symm.trans hd))
        exact ⟨hbelow, more, hy⟩

theorem Descends.belowAll : ∀ {ns : List Node} {path : List String},
    (∀ n ∈ ns, n.Descends ∧ ∃ more, n.control.dataPointer = some (ofSegments (path ++ more))) →
    ∀ c ∈ controlsAll ns, ∃ more, c.dataPointer = some (ofSegments (path ++ more))
  | [], _, _, _, hc => absurd hc List.not_mem_nil
  | n :: ns, path, h, c, hc => by
      cases List.mem_append.mp hc with
      | inl hc =>
          obtain ⟨hbelow, more, hmore⟩ := h n List.mem_cons_self
          obtain ⟨rest, hrest⟩ := Descends.below hbelow hmore c hc
          exact ⟨more ++ rest, by rw [hrest, List.append_assoc]⟩
      | inr hc => exact Descends.belowAll (fun n hn => h n (List.mem_cons_of_mem _ hn)) c hc

end

/-- The node has the given pointers, and what is bound within it is bound there or
below. -/
structure At (place layout : String) (m : Node) : Prop where
  dataPointer : m.control.dataPointer = some place
  layoutPointer : m.control.layoutPointer = layout
  below : ∀ c ∈ m.controls, ∀ b, c.dataPointer = some b → Pointer.covers place b = true

end Node

namespace Template

variable {t : Template} {site : Site} {path : List String} {m : Nat}

/-- A copy of a relative template is at its site. -/
theorem place_at (site : Site) (hrel : t.relative = true) (hwritten : t.node.Within Pointer.Written)
    (hdata : t.node.control.dataPointer = some "")
    (hlayout : t.node.control.layoutPointer = Pointer.level 0)
    (hd : site.dataPointer = ofSegments path) (hl : site.layoutPointer = Pointer.level m)
    (last : Nat) : (t.place site last).1.At site.dataPointer site.layoutPointer := by
  obtain ⟨id, hid⟩ := t.control_place site last
  refine ⟨?_, ?_, ?_⟩
  · rw [hid, placedControl, hrel, if_pos rfl]
    show t.node.control.dataPointer.map _ = _
    rw [hdata, Option.map_some, String.append_empty]
  · rw [hid, t.placedControl_level hrel hl id hlayout, Nat.add_zero, hl]
  · intro c hc b hb
    obtain ⟨first, hfirst, id, rfl⟩ := mem_controls_placeNode _ _ hc
    rw [placedControl, hrel, if_pos rfl] at hb
    obtain ⟨a, ha, rfl⟩ := Option.map_eq_some_iff.mp hb
    obtain ⟨below, rfl⟩ := hwritten first hfirst a ha
    rw [hd, ← Pointer.ofSegments_append, Pointer.covers_ofSegments]
    exact List.prefix_append _ _

/-- A copy of an absolute template is where the template is. -/
theorem place_at_absolute (hrel : t.relative = false) {place layout : String}
    (h : t.node.At place layout) (site : Site) (last : Nat) :
    (t.place site last).1.At place layout := by
  have hplaced : ∀ (id : Nat) (c : Control),
      t.placedControl site id c = { c with id := some id } := by
    intro id c
    rw [placedControl, hrel, if_neg Bool.false_ne_true]
  obtain ⟨id, hid⟩ := t.control_place site last
  rw [hplaced] at hid
  refine ⟨?_, ?_, ?_⟩
  · rw [hid, ← h.dataPointer]
  · rw [hid, ← h.layoutPointer]
  · intro c hc b hb
    obtain ⟨first, hfirst, i, rfl⟩ := mem_controls_placeNode _ _ hc
    rw [hplaced] at hb
    exact h.below first hfirst b hb

end Template

/-! ## Templates of names -/

namespace Generate

variable {ctx : Setup} {S : Request → Prop} {q : Progress} {goal : Goal} {n : Node}
  {name : String} {t : Template}

/-- No names are asked about. -/
theorem asks_any (ctx : Setup) (S : Request → Prop) : Asks ctx S fun _ _ => True :=
  fun _ _ _ _ _ _ _ => trivial

theorem none_upright {l : Library} : ∀ name t, NoneGiven name t →
    t.Upright (fun _ _ => True) l name :=
  fun _ _ h => h.elim

theorem none_within {W V : String → Prop} : ∀ name t, NoneGiven name t → t.Within W V :=
  fun _ _ h => h.elim

/-- The root of a relative template is bound to the place where it is put. -/
theorem Origin.start (h : Origin ctx S NoneGiven q name t) (hrel : t.relative = true) :
    t.node.control.dataPointer = some "" := by
  rcases h with ht | ⟨r, relative, n, hr, hn, rfl⟩
  · exact ht.elim
  · exact hr.root_relative hrel hn

/-- The root of an absolute template is bound at the place of its name, and laid out where
an array that has the name for its own has its items. -/
theorem Origin.home (hS : ∀ r, S r → r.Levelled) (h : Origin ctx S NoneGiven q name t)
    (hrel : t.relative = false) :
    t.node.control.dataPointer = some (ctx.generic name) ∧
      ∃ r item, Comes ctx S r ∧ Takes ctx r name item ∧ (itemSite ctx r).relative = false ∧
        t.node.control.layoutPointer = (itemSite ctx r).layout := by
  rcases h with ht | ⟨r', relative, n, hr', hn, rfl⟩
  · exact ht.elim
  · obtain ⟨r, item, hcomes, htakes, hown, -, hlayout⟩ := hr'.home hrel
    refine ⟨hr'.root_absolute hrel hn, r, item, hcomes, htakes, hown, ?_⟩
    obtain ⟨m, hm⟩ := hcomes.levelled hS
    have hsite := itemSite_layout ctx hm
    have hplaced : n.control.layoutPointer = r'.layout := hn.placed
    rw [storedNode_layoutPointer, hplaced, layout_of_level (hlayout.trans hsite), hsite]

theorem Origin.holding (hS : ∀ r, S r → Pointer.Written r.dataPointer)
    (h : Origin ctx S NoneGiven q name t) : Holding ctx S q.templates t.node := by
  rcases h with ht | ⟨r, relative, n, -, hn, rfl⟩
  · exact ht.elim
  · exact Holding.template (hn.holds hS) relative

end Generate

/-! ## Add controls without references -/

namespace Setup.Unreferenced

open Generate

variable {ctx : Setup} {q : Progress} {goal : Goal} {n : Node} {name : String} {c c' : Control}

/-- The control adds an item to an array that comes up, and names the template of its
items. -/
def Adds (ctx : Setup) (name : String) (c : Control) : Prop :=
  ∃ r, Comes ctx Whole r ∧ name = (itemSite ctx r).name ∧
    c.dataPointer = some (Pointer.anyItem (ctx.generic r.dataPointer)) ∧
    c.layoutPointer = (itemSite ctx r).layout

/-- All controls in the node that name a template add an item. -/
def Adding (ctx : Setup) (n : Node) : Prop :=
  ∀ c ∈ n.controls, ∀ name, c.reference = some name → Adds ctx name c

theorem adds_congr (h : Adds ctx name c) (hd : c'.dataPointer = c.dataPointer)
    (hl : c'.layoutPointer = c.layoutPointer) : Adds ctx name c' := by
  unfold Adds
  rw [hd, hl]
  exact h

theorem adding_around {ns : List Node} (hc : c.reference = none)
    (hns : ∀ n ∈ ns, Adding ctx n) : Adding ctx (.mk c ns) := by
  intro d hd name hname
  rcases Node.mem_controls_mk.mp hd with rfl | ⟨n, hn, hd⟩
  · rw [hc] at hname
    cases hname
  · exact hns n hn d hd name hname

theorem adding_modify {f : Control → Control} (h : Adding ctx n)
    (hf : ∀ c, (f c).dataPointer = c.dataPointer ∧ (f c).layoutPointer = c.layoutPointer ∧
      (f c).reference = c.reference) : Adding ctx (n.modify f) := by
  intro c hc name hname
  rcases Node.mem_controls_modify hc with rfl | hc
  · obtain ⟨hd, hl, hr⟩ := hf n.control
    exact adds_congr (h _ (Node.control_mem n) name (hr.symm.trans hname)) hd hl
  · exact h c hc name hname

/-- What a node derived for a goal adds. -/
def Goal.Adding (ctx : Setup) : Goal → Node → Prop
  | .request _, n => Unreferenced.Adding ctx n
  | .property _, n => Unreferenced.Adding ctx n
  | .item r array, n => Comes ctx Whole r → array.dataPointer = some (ctx.generic r.dataPointer) →
      array.layoutPointer = r.layout → Unreferenced.Adding ctx n

theorem reference_of_answers {r : Request} {schema : Json}
    (h : Answers ctx Whole r schema c) : c.reference = none := by
  obtain ⟨type, id, -, rfl⟩ := h.control
  exact controlFor_reference ctx r schema type id

/-- **Add controls.**  Without references all controls that name a template add an item. -/
theorem adding (hplain : ctx.Unreferenced) (h : Derives ctx Whole NoneGiven q goal n) :
    Goal.Adding ctx goal n := by
  -- On the derivation: copies of absolute templates have the pointers of the template.
  induction h with
  | leaf options ha _ =>
      have hnone := reference_of_answers ha
      exact adding_around hnone fun _ hn => absurd hn List.not_mem_nil
  | object ha _ _ _ ih => exact adding_around (reference_of_answers ha) ih
  | array ha _ _ _ ih =>
      have hnone := reference_of_answers ha
      exact adding_around hnone fun n hn => ih n hn ha.comes ha.dataPointer ha.layoutPointer
  | reference ha ht => exact absurd (ha.reads ht).dataType (hplain.typed _ _ ha.found)
  | property _ ih => exact ih
  | required _ ih => exact adding_modify ih fun _ => ⟨rfl, rfl, rfl⟩
  | fixed _ ih => exact fun _ _ _ => ih
  | @copy r r' array name item relative n last ht hfor hn _ ih =>
      intro _ _ _ c hc name hname
      have hrel : relative = false := hplain.absolute (.inr ⟨r', relative, n, hfor, hn, rfl⟩)
      subst hrel
      obtain ⟨first, hfirst, id, rfl⟩ := Template.mem_controls_placeNode _ _ hc
      rw [Template.of, Node.controls_map] at hfirst
      obtain ⟨stored, hstored, rfl⟩ := List.mem_map.mp hfirst
      have hadding : Adding ctx (storedNode false n) := by
        unfold storedNode
        split
        · exact adding_modify ih fun _ => ⟨rfl, rfl, rfl⟩
        · exact ih
      exact adds_congr (hadding stored hstored name hname) rfl rfl
  | given _ _ hgiven _ => exact hgiven.elim
  | @add r array label bounds id =>
      intro hcomes hdata hlayout c hc name hname
      obtain rfl := List.mem_singleton.mp hc
      refine ⟨r, hcomes, (Option.some.inj hname).symm, ?_, ?_⟩
      · show array.dataPointer.map Pointer.anyItem = _
        rw [hdata]
        rfl
      · show Pointer.anyItem (array.layoutPointer ++ "/items") = _
        rw [hlayout]
        rfl
  | limited _ _ _ ih =>
      exact fun hcomes hdata hlayout =>
        adding_modify (ih hcomes hdata hlayout) fun _ => ⟨rfl, rfl, rfl⟩

/-- Such a control is at the place of the name, and as deep as any array with the name has
its items. -/
theorem adds_at (hplain : ctx.Unreferenced) (h : Adds ctx name c) :
    c.dataPointer = some (ctx.generic name) ∧ ∀ r item, Comes ctx Whole r →
      Takes ctx r name item → c.layoutPointer = (itemSite ctx r).layout := by
  obtain ⟨r, hcomes, rfl, hdata, hlayout⟩ := h
  have hname := itemSite_name (hplain.own hcomes)
  refine ⟨?_, fun r' item hcomes' htakes => ?_⟩
  · rw [hdata, hname]
    exact congrArg some (Pointer.toGeneric_anyItem _ _).symm
  · obtain ⟨segment, hother, -⟩ := htakes.own (hplain.own hcomes')
    have hdepth := hplain.layout_of_child hcomes hcomes'
      (((Pointer.anyItem_eq_child _).symm.trans hname.symm).trans hother)
    rw [hlayout]
    simp only [itemSite, arraySite, hdepth]

end Setup.Unreferenced

/-! ## Whole forms -/

namespace Form

open Generate

variable {options : FormOptions} {widgets : Registry} {schema data : Option Json} {form : Form}

/-- What holds of the controls of derived nodes, and of others without a reference, holds
of those of the layout of a whole schema. -/
theorem controls_derived (h : compile options widgets schema none data = .ok form)
    {c : Control} (hc : c ∈ Node.controlsAll form.layout) :
    ∃ d, c = Compose.withTitleMap form.setup.options.flatList d ∧
      ((∃ s n, d ∈ (n.modify (Compose.topControl form.setup)).controls ∧
          (Derives form.setup Whole NoneGiven s (.request {}) n ∨
            Derives form.setup Whole NoneGiven s (.property {}) n)) ∨
        ∃ id, d = (Compose.submitControl form.setup id).control) := by
  obtain ⟨built, s, more, -, hbuilt, hmore, hlayout, -⟩ := whole_derives h
  rw [hlayout, Node.controlsAll_mapAll] at hc
  obtain ⟨d, hd, rfl⟩ := List.mem_map.mp hc
  refine ⟨d, rfl, ?_⟩
  rw [Node.controlsAll_append] at hd
  cases List.mem_append.mp hd with
  | inl hd =>
      obtain ⟨_, hmem, hd⟩ := Node.mem_controlsAll.mp hd
      obtain ⟨n, hn, rfl⟩ := List.mem_map.mp hmem
      exact .inl ⟨s, n, hd, hbuilt.imp (· n hn) (· n hn)⟩
  | inr hd =>
      rcases hmore with rfl | ⟨id, rfl⟩
      · exact absurd hd List.not_mem_nil
      · exact .inr ⟨id, List.mem_singleton.mp hd⟩

/-- In the layout of a whole schema all controls have written data pointers and are
levelled. -/
theorem controls_placed (h : compile options widgets schema none data = .ok form) :
    ∀ c ∈ Node.controlsAll form.layout, c.Within Pointer.Written ∧ c.Levelled := by
  intro c hc
  obtain ⟨d, rfl, hd⟩ := controls_derived h hc
  suffices hboth : d.Within Pointer.Written ∧ d.Levelled by
    exact ⟨hboth.1.congr (Compose.withTitleMap_same (·.dataPointer) (fun _ _ => rfl) _ d),
      hboth.2.congr ((Compose.withTitleMap_keepsPlace _).layoutPointer d)⟩
  rcases hd with ⟨s, n, hd, hn⟩ | ⟨id, rfl⟩
  · have hplaced : n.Within Pointer.Written ∧ n.Upright (fun _ _ => True) s.templates := by
      rcases hn with hn | hn
      all_goals
        exact ⟨hn.within (written_reaches form.setup) whole_written none_within,
          hn.stands whole_levelled (asks_any _ _) none_upright⟩
    obtain ⟨hwithin, hupright⟩ := hplaced
    have htop := Compose.topControl_dataPointer form.setup n.control
    exact ⟨hwithin.modify (fun hc => hc.congr htop) d hd,
      (hupright.modify (Compose.topControl_keepsPlace form.setup)).controls d hd⟩
  · exact ⟨fun a ha => (Option.some_ne_none a ha.symm).elim, 0, rfl⟩

/-- In a stored relative template all controls have written data pointers, and it starts
where it is put. -/
theorem template_placed (h : compile options widgets schema none data = .ok form)
    {name : String} {t : Template} (ht : form.progress.templates.template? name = some t)
    (hrel : t.relative = true) : t.node.Within Pointer.Written ∧
      t.node.control.dataPointer = some "" ∧ t.node.control.layoutPointer = Pointer.level 0 := by
  obtain ⟨s, stored, horigin, rfl, -⟩ := stored_origin h ht
  have hwithin := horigin.within (written_reaches form.setup) whole_written none_within
  rw [Template.Within, ite_self] at hwithin
  have hdata := Compose.withTitleMap_same (·.dataPointer) (fun _ _ => rfl)
    form.setup.options.flatList
  refine ⟨hwithin.map fun c hc => hc.congr (hdata c), ?_, ?_⟩
  · rw [Node.control_map, hdata, horigin.start hrel]
  · rw [Node.control_map, (Compose.withTitleMap_keepsPlace _).layoutPointer]
    exact (horigin.upright whole_levelled (asks_any _ _) none_upright).start hrel

/-- **Where templates are.**  A template that is stored absolute is bound at the place of
its name, and laid out where an array that has the name for its own has its items. -/
theorem template_home (h : compile options widgets schema none data = .ok form)
    {name : String} {t : Template} (ht : form.progress.templates.template? name = some t)
    (hrel : t.relative = false) :
    t.node.control.dataPointer = some (form.setup.generic name) ∧
      ∃ r item, Comes form.setup Whole r ∧ Takes form.setup r name item ∧
        (itemSite form.setup r).relative = false ∧
        t.node.control.layoutPointer = (itemSite form.setup r).layout := by
  obtain ⟨s, stored, horigin, rfl, -⟩ := stored_origin h ht
  obtain ⟨hdata, hhome⟩ := horigin.home whole_levelled hrel
  refine ⟨?_, ?_⟩
  · rw [Node.control_map, Compose.withTitleMap_same (·.dataPointer) (fun _ _ => rfl), hdata]
  · rw [Node.control_map, (Compose.withTitleMap_keepsPlace _).layoutPointer]
    exact hhome

/-- The controls of stored templates hold those right below them. -/
theorem template_holds (h : compile options widgets schema none data = .ok form)
    {name : String} {t : Template} (ht : form.progress.templates.template? name = some t) :
    Holding form.setup Whole form.progress.templates t.node := by
  obtain ⟨s, stored, horigin, rfl, htemplates⟩ := stored_origin h ht
  have hdata := Compose.withTitleMap_same (·.dataPointer) (fun _ _ => rfl)
    form.setup.options.flatList
  intro link hlink
  rw [Node.links_map] at hlink
  obtain ⟨first, hfirst, rfl⟩ := List.mem_map.mp hlink
  rw [htemplates]
  exact ((horigin.holding whole_written first hfirst).mapControls _).congr (hdata _)
    ((Compose.withTitleMap_keepsPlace _).dataType _) (hdata _)

theorem instantiate_eq_some {form : Form} {name : String} {site : Site} {m : Node}
    (h : (form.instantiate name site).1 = some m) :
    ∃ t last, form.progress.templates.template? name = some t ∧ m = (t.place site last).1 := by
  unfold instantiate at h
  split at h
  · next t ht => exact ⟨t, _, ht, (Option.some.inj h).symm⟩
  · exact absurd h (Option.some_ne_none m).symm

/-- The template of the name is absolute, and not one for the control that is bound to the
place `a`. -/
inductive Misled (form : Form) (n : Control) (name a : String) : Prop
  /-- The place of the name is another one than the control's. -/
  | elsewhere {t : Template} : form.progress.templates.template? name = some t →
      t.relative = false → form.setup.generic name ≠ a → Misled form n name a
  /-- An array that has the name for its own has its items at another depth. -/
  | deeper {t : Template} {r : Request} {item : String} :
      form.progress.templates.template? name = some t → t.relative = false →
      Comes form.setup Whole r → Takes form.setup r name item →
      (itemSite form.setup r).relative = false →
      (itemSite form.setup r).layout ≠ n.layoutPointer → Misled form n name a
  /-- Something in the template has strayed. -/
  | strayed {t : Template} {link : Control × Control} {above below : String} :
      form.progress.templates.template? name = some t → t.relative = false →
      link ∈ t.node.links → link.1.dataPointer = some above → link.2.dataPointer = some below →
      Strayed form link.1 above below → Misled form n name a

/-- What is put where a control of a whole layout is, is at the control, unless it is
misled. -/
theorem instantiate_at (h : compile options widgets schema none data = .ok form) {n : Control}
    (hn : n ∈ Node.controlsAll form.layout) {name a : String} (ha : n.dataPointer = some a)
    {m : Node} (hm : (form.instantiate name ⟨a, n.layoutPointer⟩).1 = some m)
    (hled : ¬Misled form n name a) : m.At a n.layoutPointer := by
  obtain ⟨t, last, ht, rfl⟩ := instantiate_eq_some hm
  obtain ⟨hwritten, depth, hdepth⟩ := controls_placed h n hn
  obtain ⟨path, rfl⟩ := hwritten a ha
  cases hrel : t.relative with
  | true =>
      obtain ⟨hcontrols, hdata, hlayout⟩ := template_placed h ht hrel
      exact Template.place_at ⟨_, n.layoutPointer⟩ hrel hcontrols hdata hlayout rfl hdepth last
  | false =>
      obtain ⟨hdata, r, item, hcomes, htakes, hown, hlayout⟩ := template_home h ht hrel
      have hplace : form.setup.generic name = ofSegments path :=
        by_contra fun hne => hled (.elsewhere ht hrel hne)
      have hlevel : (itemSite form.setup r).layout = n.layoutPointer :=
        by_contra fun hne => hled (.deeper ht hrel hcomes htakes hown hne)
      have hdescends : t.node.Descends := by
        intro link hlink
        obtain ⟨x, y, hx, hy, hprefix | hstrayed⟩ := template_holds h ht link hlink
        · exact ⟨x, y, hx, hy, hprefix⟩
        · exact absurd (.strayed ht hrel hlink hx hy hstrayed) hled
      rw [hplace] at hdata
      refine Template.place_at_absolute hrel ⟨hdata, hlayout.trans hlevel, ?_⟩ _ last
      intro c hc b hb
      obtain ⟨more, hmore⟩ := hdescends.below hdata c hc
      obtain rfl := Option.some.inj (hmore.symm.trans hb)
      exact Pointer.covers_ofSegments.mpr (List.prefix_append _ _)

/-- Without references every control that names a template adds an item. -/
theorem adds (h : compile options widgets schema none data = .ok form)
    (hplain : form.setup.Unreferenced) {n : Control} (hn : n ∈ Node.controlsAll form.layout)
    {name : String} (hname : n.reference = some name) :
    Setup.Unreferenced.Adds form.setup name n := by
  obtain ⟨d, rfl, hd⟩ := controls_derived h hn
  rw [Compose.withTitleMap_same Control.reference fun _ _ => rfl] at hname
  refine Setup.Unreferenced.adds_congr ?_
    (Compose.withTitleMap_same (·.dataPointer) (fun _ _ => rfl) _ d)
    ((Compose.withTitleMap_keepsPlace _).layoutPointer d)
  rcases hd with ⟨s, node, hd, hnode⟩ | ⟨id, rfl⟩
  · have hadding : Setup.Unreferenced.Adding form.setup node := by
      rcases hnode with hnode | hnode
      all_goals exact hplain.adding hnode
    refine Setup.Unreferenced.adding_modify hadding (fun c => ?_) d hd name hname
    refine ⟨Compose.topControl_dataPointer _ c,
      (Compose.topControl_keepsPlace form.setup).layoutPointer c, ?_⟩
    unfold Compose.topControl
    split <;> rfl
  · cases hname

/-- Without references no control is misled. -/
theorem not_misled (h : compile options widgets schema none data = .ok form)
    (hplain : form.setup.Unreferenced) {n : Control} (hn : n ∈ Node.controlsAll form.layout)
    {name a : String} (hname : n.reference = some name) (ha : n.dataPointer = some a) :
    ¬Misled form n name a := by
  obtain ⟨hdata, hlayout⟩ := hplain.adds_at (adds h hplain hn hname)
  intro hmisled
  cases hmisled with
  | elsewhere _ _ hne => exact hne (Option.some.inj (hdata.symm.trans ha))
  | deeper _ _ hcomes htakes _ hne => exact hne (hlayout _ _ hcomes htakes).symm
  | strayed _ _ _ _ _ hstrayed => exact not_strayed h hplain hstrayed

/-- **What is added stands at its control.**  What an add control of a whole layout gives
has the control's pointers, and what is bound within it is bound there or below, unless the
control is misled; without references it always does. -/
theorem added_at (h : compile options widgets schema none data = .ok form) {n : Control}
    (hn : n ∈ Node.controlsAll form.layout) {name a : String} (hname : n.reference = some name)
    (ha : n.dataPointer = some a) {m : Node}
    (hm : (form.instantiate name ⟨a, n.layoutPointer⟩).1 = some m) :
    (¬Misled form n name a → m.At a n.layoutPointer) ∧
      (form.setup.Unreferenced → m.At a n.layoutPointer) :=
  ⟨instantiate_at h hn ha hm,
    fun hplain => instantiate_at h hn ha hm (not_misled h hplain hn hname ha)⟩

/-- The pointers of the controls of a schema's form that stand for an item, and those of
what is added there. -/
def additions (schema : Json) : List ((String × String) × Option (Option String × String)) :=
  match compile {} [] (some schema) none none with
  | .ok form => ((Node.controlsAll form.layout).filter Control.isReference).filterMap fun n =>
      n.reference.bind fun name => n.dataPointer.map fun a =>
        ((a, n.layoutPointer), (form.instantiate name ⟨a, n.layoutPointer⟩).1.map fun m =>
          (m.control.dataPointer, m.control.layoutPointer))
  | .error _ => []

theorem mem_additions {schema : Json} {a layout layout' : String} {b : Option String}
    (h : ((a, layout), some (b, layout')) ∈ additions schema) :
    ∃ form n name m, compile {} [] (some schema) none none = .ok form ∧
      n ∈ Node.controlsAll form.layout ∧ n.isReference = true ∧ n.reference = some name ∧
      n.dataPointer = some a ∧ n.layoutPointer = layout ∧
      (form.instantiate name ⟨a, n.layoutPointer⟩).1 = some m ∧
      m.control.dataPointer = b ∧ m.control.layoutPointer = layout' := by
  unfold additions at h
  split at h
  · next form hform =>
      obtain ⟨n, hmem, he⟩ := List.mem_filterMap.mp h
      obtain ⟨hn, href⟩ := List.mem_filter.mp hmem
      obtain ⟨name, hname, he⟩ := Option.bind_eq_some_iff.mp he
      obtain ⟨a', ha, he⟩ := Option.map_eq_some_iff.mp he
      obtain ⟨hsite, hmade⟩ := Prod.mk.inj he
      obtain ⟨rfl, hlayout⟩ := Prod.mk.inj hsite
      obtain ⟨m, hm, hpointers⟩ := Option.map_eq_some_iff.mp hmade
      obtain ⟨hb, hlayout'⟩ := Prod.mk.inj hpointers
      exact ⟨form, n, name, m, hform, hn, href, hname, ha, hlayout, hm, hb, hlayout'⟩
  · exact absurd h List.not_mem_nil

/-- A tree whose nodes have children. -/
def branchesSchema : Json :=
  .obj [("type", .str "object"), ("properties", .obj [("tree", .obj [("type", .str "object"),
    ("properties", .obj [("children", .obj [("type", .str "array"),
      ("items", .obj [("$ref", .str "#/properties/tree")])])])])])]

/-- An item is added to a list where its control is, and a child to a tree too. -/
theorem added_at_branches :
    (∃ form n m, compile {} [] (some listSchema) none none = .ok form ∧
      n ∈ Node.controlsAll form.layout ∧ n.reference = some "/list/-" ∧
      form.setup.Unreferenced ∧
      (form.instantiate "/list/-" ⟨"/list/-", n.layoutPointer⟩).1 = some m ∧
      m.At "/list/-" n.layoutPointer) ∧
    ∃ form n name m, compile {} [] (some branchesSchema) none none = .ok form ∧
      n ∈ Node.controlsAll form.layout ∧ n.reference = some name ∧
      ¬Misled form n name "/tree/children/-" ∧
      (form.instantiate name ⟨"/tree/children/-", n.layoutPointer⟩).1 = some m ∧
      m.At "/tree/children/-" n.layoutPointer := by
  constructor
  · have hcompiled : (compile {} [] (some listSchema) none none).toOption.any (fun form =>
        form.setup.lacksReferences && (Node.controlsAll form.layout).any fun n =>
          n.reference == some "/list/-" && n.dataPointer == some "/list/-" &&
            (form.instantiate "/list/-" ⟨"/list/-", n.layoutPointer⟩).1.isSome) = true := by
      decide +kernel
    obtain ⟨form, hform, hcompiled⟩ := exists_ok_of_any hcompiled
    simp only [Bool.and_eq_true, List.any_eq_true, beq_iff_eq, Option.isSome_iff_exists]
      at hcompiled
    obtain ⟨hplain, n, hn, ⟨hname, ha⟩, m, hm⟩ := hcompiled
    have hplain := Setup.unreferenced_of hplain
    exact ⟨form, n, m, hform, hn, hname, hplain, hm, (added_at hform hn hname ha hm).2 hplain⟩
  · have hcompiled : (compile {} [] (some branchesSchema) none none).toOption.any (fun form =>
        (Node.controlsAll form.layout).any fun n => n.dataPointer == some "/tree/children/-" &&
          n.reference.any fun name =>
            (form.progress.templates.template? name).any Template.relative &&
              (form.instantiate name ⟨"/tree/children/-", n.layoutPointer⟩).1.isSome) = true := by
      decide +kernel
    obtain ⟨form, hform, hcompiled⟩ := exists_ok_of_any hcompiled
    simp only [Bool.and_eq_true, List.any_eq_true, beq_iff_eq, Option.any_eq_true,
      Option.isSome_iff_exists] at hcompiled
    obtain ⟨n, hn, ha, name, hname, ⟨t, ht, hrel⟩, m, hm⟩ := hcompiled
    have hled : ¬Misled form n name "/tree/children/-" := by
      intro hmisled
      obtain ⟨other, hother, habsolute⟩ : ∃ other, form.progress.templates.template? name =
          some other ∧ other.relative = false := by
        cases hmisled with
        | elsewhere hother habsolute _ => exact ⟨_, hother, habsolute⟩
        | deeper hother habsolute _ _ _ _ => exact ⟨_, hother, habsolute⟩
        | strayed hother habsolute _ _ _ _ => exact ⟨_, hother, habsolute⟩
      obtain rfl := Option.some.inj (ht.symm.trans hother)
      rw [hrel] at habsolute
      cases habsolute
    exact ⟨form, n, name, m, hform, hn, hname, hled, hm, (added_at hform hn hname ha hm).1 hled⟩

/-- Adding a tag within a child of a tree gives a control bound to the tags of the root. -/
theorem not_added_at :
    ∃ form n name m, compile {} [] (some treeSchema) none none = .ok form ∧
      n ∈ Node.controlsAll form.layout ∧ n.isReference = true ∧ n.reference = some name ∧
      n.dataPointer = some "/tree/children/-/tags/-" ∧
      (form.instantiate name ⟨"/tree/children/-/tags/-", n.layoutPointer⟩).1 = some m ∧
      m.control.dataPointer = some "/tree/tags/-" ∧
      ¬m.At "/tree/children/-/tags/-" n.layoutPointer := by
  have hmem : (("/tree/children/-/tags/-", "/-/items/-/items/-/items/-/items/-"),
      some (some "/tree/tags/-", "/-/items/-/items/-")) ∈ additions treeSchema := by
    decide +kernel
  obtain ⟨form, n, name, m, hform, hn, href, hname, ha, -, hm, hb, -⟩ := mem_additions hmem
  refine ⟨form, n, name, m, hform, hn, href, hname, ha, hm, hb, ?_⟩
  intro hat
  have hsame : some "/tree/tags/-" = some "/tree/children/-/tags/-" := hb.symm.trans hat.dataPointer
  exact absurd hsame (by decide)

end Form

end SchemaForm
