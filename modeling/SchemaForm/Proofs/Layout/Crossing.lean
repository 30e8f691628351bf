/-
Nodes that stand straight, and copies that cross.

In an upright node every control stands right below its parent, or it is an item of an
array that crosses.  So a node is erect, with all its controls at their depths, or
something in it crosses (`Node.Crossed`).

An erect node stays erect when it is moved as a whole (`Node.Erect.shift`), and what crosses
still does when the depths of all controls change and stay in order (`Node.Crossed.shift`).
That is how loose fields are gathered into an item of an array.
-/
import SchemaForm.Proofs.Layout.Standing

namespace SchemaForm

/-- Some copy in the node crosses. -/
def Node.Crossed (P : String → Nat → Prop) (l : Library) (n : Node) : Prop :=
  ∃ link ∈ n.links, Crosses P l link.1 link.2

/-- Every control stands right below its parent. -/
def Node.Erect (n : Node) : Prop := ∀ link ∈ n.links, link.1.Under link.2

variable {P : String → Nat → Prop} {l l' : Library} {c d c' d' : Control} {n : Node}
  {ns : List Node} {f : Control → Control} {m : Nat}

namespace Node

theorem mem_links_child (hn : n ∈ ns) {link : Control × Control} (h : link ∈ n.links) :
    link ∈ (mk c ns).links :=
  mem_links_mk.mpr (.inr (mem_linksAll.mpr ⟨n, hn, h⟩))

/-! ## Copies that cross -/

namespace Crossed

theorem mono (h : n.Crossed P l) (hl : l.Keeps l') : n.Crossed P l' := by
  obtain ⟨link, hlink, hcrosses⟩ := h
  exact ⟨link, hlink, hcrosses.mono hl⟩

theorem child (hn : n ∈ ns) (h : n.Crossed P l) (c : Control) : (Node.mk c ns).Crossed P l := by
  obtain ⟨link, hlink, hcrosses⟩ := h
  exact ⟨link, mem_links_child hn hlink, hcrosses⟩

theorem modify (h : n.Crossed P l) (hf : KeepsPlace f) : (n.modify f).Crossed P l := by
  obtain ⟨link, hlink, hcrosses⟩ := h
  cases n with
  | mk c items =>
      rcases mem_links_mk.mp hlink with ⟨child, hchild, rfl⟩ | hlink
      · refine ⟨(f c, child.control), mem_links_mk.mpr (.inl ⟨child, hchild, rfl⟩), ?_⟩
        exact hcrosses.congr (hf.dataType c) (hf.layoutPointer c) rfl rfl
      · exact ⟨link, mem_links_mk.mpr (.inr hlink), hcrosses⟩

/-- What crosses still does when the depths of all controls are changed in order. -/
theorem shift (h : n.Crossed P l) (hdata : ∀ c, (f c).dataType = c.dataType)
    (hcore : ∀ c : Control, (f c).core = c.core) {move : Nat → Nat} (hmove : StrictMono move)
    (hf : ∀ c m, c.layoutPointer = Pointer.level m →
      (f c).layoutPointer = Pointer.level (move m)) :
    (n.map f).Crossed P l := by
  obtain ⟨link, hlink, hcrosses⟩ := h
  refine ⟨Prod.map f f link, ?_, hcrosses.shift (hdata _) (hcore _) hmove (hf _) (hf _)⟩
  rw [links_map]
  exact List.mem_map_of_mem hlink

/-- Every control and every template is changed, and no copy shows it. -/
theorem mapControls (h : n.Crossed P l) (hf : KeepsPlace f)
    (hcore : ∀ c : Control, (f c).core = c.core) : (n.map f).Crossed P (l.mapControls f) := by
  obtain ⟨link, hlink, hcrosses⟩ := h
  refine ⟨Prod.map f f link, ?_, hcrosses.mapControls hf hcore⟩
  rw [links_map]
  exact List.mem_map_of_mem hlink

end Crossed

/-! ## Erect nodes -/

/-- An upright node is erect, or a copy in it crosses. -/
theorem Upright.erect_or_crossed (h : n.Upright P l) : n.Erect ∨ n.Crossed P l := by
  by_cases herect : n.Erect
  · exact .inl herect
  · obtain ⟨link, hlink, hunder⟩ : ∃ link ∈ n.links, ¬link.1.Under link.2 := by
      simpa [Erect] using herect
    exact .inr ⟨link, hlink, (h.links link hlink).resolve_left hunder⟩

theorem Erect.child (h : (mk c ns).Erect) (hn : n ∈ ns) : c.Under n.control ∧ n.Erect :=
  ⟨h _ (mem_links_mk.mpr (.inl ⟨n, hn, rfl⟩)), fun link hlink => h link (mem_links_child hn hlink)⟩

theorem Erect.modify (h : n.Erect) (hf : KeepsPlace f) : (n.modify f).Erect := by
  intro link hlink
  obtain ⟨first, hfirst, hd, hc⟩ := mem_links_modify hlink
  have hunder : first.1.Under first.2 := h first hfirst
  rw [Control.Under] at hunder ⊢
  cases hc with
  | inl hc => rw [hd, hc, hunder]
  | inr hc => rw [hd, hc, hf.layoutPointer, hunder]

mutual

/-- In an erect node all controls are at the depth of its own or below. -/
theorem Erect.level : ∀ {n : Node} {m : Nat}, n.Erect → n.control.layoutPointer = Pointer.level m →
    ∀ c ∈ n.controls, ∃ k, c.layoutPointer = Pointer.level (m + k)
  | mk d items, m, h, hm, c, hc => by
      rcases List.mem_cons.mp hc with rfl | hc
      · exact ⟨0, hm⟩
      · have hitems : ∀ n ∈ items, n.Erect ∧ n.control.layoutPointer = Pointer.level (m + 1) := by
          intro n hn
          obtain ⟨hunder, herect⟩ := h.child hn
          have hd : d.layoutPointer = Pointer.level m := hm
          rw [Control.Under, hd] at hunder
          exact ⟨herect, hunder⟩
        obtain ⟨k, hk⟩ := Erect.levelAll hitems c hc
        exact ⟨1 + k, by rw [hk, Nat.add_assoc]⟩

theorem Erect.levelAll : ∀ {ns : List Node} {m : Nat},
    (∀ n ∈ ns, n.Erect ∧ n.control.layoutPointer = Pointer.level m) →
    ∀ c ∈ controlsAll ns, ∃ k, c.layoutPointer = Pointer.level (m + k)
  | [], _, _, _, hc => absurd hc List.not_mem_nil
  | n :: ns, m, h, c, hc => by
      cases List.mem_append.mp hc with
      | inl hc =>
          obtain ⟨herect, hm⟩ := h n List.mem_cons_self
          exact Erect.level herect hm c hc
      | inr hc => exact Erect.levelAll (fun n hn => h n (List.mem_cons_of_mem _ hn)) c hc

end

theorem Erect.upright (h : n.Erect) (hm : n.control.layoutPointer = Pointer.level m) :
    n.Upright P l := by
  refine ⟨fun link hlink => .inl (h link hlink), fun c hc => ?_⟩
  obtain ⟨k, hk⟩ := h.level hm c hc
  exact ⟨m + k, hk⟩

/-- An erect node that is moved as a whole is erect. -/
theorem Erect.shift (h : n.Erect) (hm : n.control.layoutPointer = Pointer.level m) (depth : Nat)
    (hf : ∀ c k, c.layoutPointer = Pointer.level (m + k) →
      (f c).layoutPointer = Pointer.level (depth + k)) :
    (n.map f).Erect ∧ (n.map f).control.layoutPointer = Pointer.level depth := by
  constructor
  · intro link hlink
    rw [links_map] at hlink
    obtain ⟨⟨c, d⟩, hfirst, rfl⟩ := List.mem_map.mp hlink
    obtain ⟨k, hk⟩ := h.level hm c (controls_of_link hfirst).1
    have hunder : d.layoutPointer = Pointer.level (m + (k + 1)) := by
      rw [h _ hfirst, hk]
      rfl
    show (f d).layoutPointer = Pointer.anyItem ((f c).layoutPointer ++ "/items")
    rw [hf d (k + 1) hunder, hf c k hk]
    rfl
  · rw [control_map]
    exact hf n.control 0 hm

end Node

end SchemaForm
