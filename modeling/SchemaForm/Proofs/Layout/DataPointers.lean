/-
The data pointers in generated nodes.

The data pointers of a derived node come from those of the requests: they are extended by
names and positions, made generic, and continued from the sites of copies.  So if the
requests have data pointers of a kind `W` that is kept by all that, the nodes have such
ones too (`Derives.within`).  A relative template may have pointers of a wider kind `V`
that only the sites make ones of `W`.
-/
import SchemaForm.Proofs.Layout.Derivation
import SchemaForm.Proofs.Layout.Links

namespace SchemaForm

/-- The control is bound to nothing, or by a data pointer of the kind. -/
def Control.Within (W : String → Prop) (c : Control) : Prop := ∀ a, c.dataPointer = some a → W a

/-- All controls have data pointers of the kind. -/
def Node.Within (W : String → Prop) (n : Node) : Prop := ∀ c ∈ n.controls, c.Within W

/-- A template of nodes of the first kind, or, if it is relative, of the second one. -/
def Template.Within (W V : String → Prop) (t : Template) : Prop :=
  t.node.Within (if t.relative then V else W)

variable {W V : String → Prop} {n : Node} {ns : List Node} {c c' : Control}
  {f : Control → Control}

theorem Control.Within.congr (h : c.Within W) (hd : c'.dataPointer = c.dataPointer) :
    c'.Within W := by
  intro a ha
  exact h a (hd.symm.trans ha)

namespace Node.Within

theorem mk (hc : c.Within W) (hns : ∀ n ∈ ns, n.Within W) : (Node.mk c ns).Within W := by
  intro d hd
  rcases Node.mem_controls_mk.mp hd with rfl | ⟨n, hn, hd⟩
  · exact hc
  · exact hns n hn d hd

theorem leaf (hc : c.Within W) : (Node.mk c []).Within W :=
  .mk hc fun _ hn => absurd hn List.not_mem_nil

theorem modify (h : n.Within W) (hf : n.control.Within W → (f n.control).Within W) :
    (n.modify f).Within W := by
  intro d hd
  rcases Node.mem_controls_modify hd with rfl | hd
  · exact hf (h _ (Node.control_mem n))
  · exact h d hd

theorem map (h : n.Within W) (hf : ∀ c : Control, c.Within W → (f c).Within V) :
    (n.map f).Within V := by
  intro d hd
  rw [Node.controls_map] at hd
  obtain ⟨c, hc, rfl⟩ := List.mem_map.mp hd
  exact hf c (h c hc)

end Node.Within

namespace Generate

variable {ctx : Setup} {S : Request → Prop} {F : String → Template → Prop} {q : Progress}
  {goal : Goal} {r : Request} {schema : Json} {t : Template} {site : Site}

/-- Pointers of the first kind pass from request to request, and where a template with
pointers of the second kind is put, ones of the first kind arise. -/
structure Reaches (ctx : Setup) (W V : String → Prop) : Prop extends Passes ctx W where
  template : ∀ a, W a → V a
  placed : ∀ a b, W a → a ≠ "" → V b → W (a ++ b)

theorem place_within (hW : Reaches ctx W V) (ht : t.Within W V) (hsite : W site.dataPointer)
    (hne : site.dataPointer ≠ "") (last : Nat) : (t.place site last).1.Within W := by
  intro c hc
  obtain ⟨first, hfirst, id, rfl⟩ := Template.mem_controls_placeNode _ _ hc
  have hwithin := ht first hfirst
  unfold Template.placedControl
  split
  · next hrel =>
      rw [if_pos hrel] at hwithin
      intro a ha
      obtain ⟨b, hb, rfl⟩ := Option.map_eq_some_iff.mp ha
      exact hW.placed _ _ hsite hne (hwithin b hb)
  · next hrel =>
      rw [if_neg hrel] at hwithin
      exact hwithin.congr rfl

theorem template_within (hW : Reaches ctx W V) (hn : n.Within W) (relative : Bool) :
    (Template.of (storedNode relative n) relative).Within W V := by
  have hstored : (storedNode relative n).Within W := by
    unfold storedNode
    split
    · exact hn.modify fun hc => hc.congr rfl
    · exact hn
  unfold Template.Within
  refine hstored.map fun c hc => ?_
  show Control.Within (if relative then V else W) _
  cases relative with
  | true => exact fun a ha => hW.template a (hc a ha)
  | false => exact hc.congr rfl

/-- What a node derived for a goal is bound to. -/
def Goal.Within (W : String → Prop) : Goal → Node → Prop
  | .request _, n => n.Within W
  | .property _, n => n.Within W
  | .item r array, n => W r.dataPointer → array.Within W → n.Within W

theorem Answers.dataPointer (h : Answers ctx S r schema c) :
    c.dataPointer = some (ctx.generic r.dataPointer) := by
  obtain ⟨type, id, -, rfl⟩ := h.control
  exact controlFor_dataPointer ctx r schema type id

theorem referenceControl_dataPointer (ctx : Setup) (r : Request) (c : Control) (name : String) :
    (referenceControl ctx r c name).dataPointer = c.dataPointer := by
  simp only [referenceControl]
  split <;> rfl

theorem Answers.within (h : Answers ctx S r schema c) (hW : Passes ctx W)
    (hS : ∀ r, S r → W r.dataPointer) (hd : c'.dataPointer = c.dataPointer) : c'.Within W := by
  intro a ha
  obtain rfl := Option.some.inj (h.dataPointer.symm.trans (hd.symm.trans ha))
  exact hW.generic _ (h.comes.dataPointer hW hS)

/-- The place of an item is of the kind that the array's is. -/
theorem Takes.within {name item : String} (h : Takes ctx r name item) (hW : Passes ctx W)
    (hr : W r.dataPointer) : W item ∧ item ≠ "" := by
  obtain ⟨segment, rfl⟩ := h.item
  exact ⟨hW.child _ _ hr, Pointer.slash_ne_empty _ _⟩

/-- **Data pointers of derived nodes.** -/
theorem Derives.within (hW : Reaches ctx W V) (hS : ∀ r, S r → W r.dataPointer)
    (hF : ∀ name t, F name t → t.Within W V) (h : Derives ctx S F q goal n) : goal.Within W n := by
  have hpasses := hW.toPasses
  induction h with
  | leaf options ha _ => exact Node.Within.leaf (ha.within hpasses hS rfl)
  | object ha _ _ _ ih => exact Node.Within.mk (ha.within hpasses hS rfl) ih
  | @array r schema c items ha _ _ _ ih =>
      have hc : (boundedControl ctx r schema c).Within W := ha.within hpasses hS rfl
      exact Node.Within.mk hc fun n hn => ih n hn (ha.comes.dataPointer hpasses hS) hc
  | reference ha _ =>
      exact Node.Within.leaf (ha.within hpasses hS (referenceControl_dataPointer _ _ _ _))
  | property _ ih => exact ih
  | required _ ih => exact Node.Within.modify ih fun hc => hc.congr rfl
  | fixed _ ih => exact fun _ _ => ih
  | copy last _ _ _ hitem ih =>
      intro hr _
      obtain ⟨hsite, hne⟩ := hitem.within hpasses hr
      exact place_within hW (template_within hW ih _) hsite hne last
  | given last _ hgiven hitem =>
      intro hr _
      obtain ⟨hsite, hne⟩ := hitem.within hpasses hr
      exact place_within hW (hF _ _ hgiven) hsite hne last
  | add label bounds id =>
      intro _ harray
      refine Node.Within.leaf fun a ha => ?_
      obtain ⟨b, hb, rfl⟩ := Option.map_eq_some_iff.mp ha
      exact hpasses.anyItem b (harray b hb)
  | limited bounds _ _ ih =>
      intro hr harray
      exact Node.Within.modify (ih hr harray) fun hc => hc.congr rfl

theorem Origin.within (hW : Reaches ctx W V) (hS : ∀ r, S r → W r.dataPointer)
    (hF : ∀ name t, F name t → t.Within W V) {name : String} (h : Origin ctx S F q name t) :
    t.Within W V := by
  rcases h with ht | ⟨r, relative, n, -, hn, rfl⟩
  · exact hF name t ht
  · have hnode : n.Within W := hn.within hW hS hF
    exact template_within hW hnode relative

/-- The node of a request has the request's data pointer. -/
theorem Derives.dataPointer (h : Derives ctx S F q (.request r) n) :
    n.control.dataPointer = some (ctx.generic r.dataPointer) := by
  cases h with
  | leaf options ha _ => exact ha.dataPointer
  | object ha _ _ _ => exact ha.dataPointer
  | array ha _ _ _ => exact ha.dataPointer
  | reference ha _ => exact (referenceControl_dataPointer _ _ _ _).trans ha.dataPointer

theorem written_reaches (ctx : Setup) : Reaches ctx Pointer.Written Pointer.Written := by
  refine ⟨⟨⟨[], rfl⟩, ?_, ?_, ?_, ?_⟩, fun _ ha => ha, ?_⟩
  · rintro _ ⟨path, rfl⟩
    exact ⟨_, Pointer.toGeneric_ofSegments _ path⟩
  · rintro _ name ⟨path, rfl⟩
    exact ⟨_, Pointer.child_ofSegments path name⟩
  · rintro _ index ⟨path, rfl⟩
    exact ⟨_, Pointer.item_ofSegments path index⟩
  · rintro _ ⟨path, rfl⟩
    exact ⟨_, Pointer.anyItem_ofSegments path⟩
  · rintro _ _ ⟨path, rfl⟩ - ⟨below, rfl⟩
    exact ⟨path ++ below, (Pointer.ofSegments_append path below).symm⟩

end Generate

end SchemaForm
