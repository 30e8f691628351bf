/-
The items of composed arrays.

Composing an entry makes nodes at the depth of the entry from those of its children, and
goes from one library of templates to another one (`Compose.Makes`).  What is made is
upright, unless a copy in it crosses.

In an array the loose fields of an item are gathered one level deeper, and a relative
template of its last item starts anew.  Both move nodes as a whole: erect ones stay
erect, and a copy that crosses in what is moved still does where it comes to be, or where
it was (`Makes.regroup`, `Makes.fillArray`).
-/
import SchemaForm.Proofs.Layout.Composed
import SchemaForm.Proofs.Layout.Crossing
import SchemaForm.Proofs.Layout.Stars

namespace SchemaForm

open Build

/-! ## Libraries -/

theorem Template.Upright.mono {P : String → Nat → Prop} {l l' : Library} {name : String}
    {t : Template} (h : t.Upright P l name) (hl : l.Keeps l') : t.Upright P l' name :=
  { h with node := h.node.mono hl }

namespace Library

variable {P : String → Nat → Prop} {l l' : Library} {name : String} {t : Template}

/-- No data pointer in the templates begins with a star, but for relative ones. -/
def Unstarred (l : Library) : Prop :=
  ∀ name t, (name, some t) ∈ l → t.Within Pointer.Unstarred AnyPointer

/-- All templates are upright. -/
def Upright (P : String → Nat → Prop) (l : Library) : Prop :=
  ∀ name t, (name, some t) ∈ l → t.Upright P l name

theorem keeps_store (h : l.knows name = false) (t : Template) : l.Keeps (l.store name t) :=
  (Extends.store h t).keeps

theorem mem_store {other : String} {stored : Template}
    (h : (other, some stored) ∈ l.store name t) :
    other = name ∧ stored = t ∨ (other, some stored) ∈ l := by
  cases Table.mem_insert h with
  | inl he =>
      obtain ⟨hname, ht⟩ := Prod.mk.inj he
      exact .inl ⟨hname, Option.some.inj ht⟩
  | inr hm => exact .inr hm

theorem Unstarred.store (h : l.Unstarred) (ht : t.Within Pointer.Unstarred AnyPointer) :
    (l.store name t).Unstarred := by
  intro other stored hm
  rcases mem_store hm with ⟨rfl, rfl⟩ | hm
  · exact ht
  · exact h other stored hm

theorem Upright.store (h : l.Upright P) (hname : l.knows name = false)
    (ht : t.Upright P l name) : (l.store name t).Upright P := by
  have hkeeps := keeps_store hname t
  intro other stored hm
  rcases mem_store hm with ⟨rfl, rfl⟩ | hm
  · exact ht.mono hkeeps
  · exact (h other stored hm).mono hkeeps

end Library

namespace Compose

variable {P : String → Nat → Prop} {ctx : Setup} {p q : Progress} {l l' l'' : Library} {m : Nat}
  {ns ms : List Node} {c : Control} {f : Control → Control} {g : Grouping}

/-! ## Nodes that are made -/

/-- The nodes are made at the depth.  No data pointer in them or in the templates begins
with a star, and all is upright if it was before, unless a copy in the nodes crosses. -/
structure Makes (P : String → Nat → Prop) (l l' : Library) (m : Nat) (ns : List Node) : Prop where
  keeps : l.Keeps l'
  unstarred : l'.Unstarred
  within : ∀ n ∈ ns, n.Within Pointer.Unstarred
  level : ∀ n ∈ ns, n.control.layoutPointer = Pointer.level m
  upright : l.Upright P → (l'.Upright P ∧ ∀ n ∈ ns, n.Upright P l') ∨ ∃ n ∈ ns, n.Crossed P l'

namespace Makes

theorem nil (h : l.Unstarred) : Makes P l l m [] := by
  refine ⟨.refl l, h, ?_, ?_, fun hl => .inl ⟨hl, ?_⟩⟩
  all_goals exact fun _ hn => absurd hn List.not_mem_nil

/-- Without nodes the depth does not matter. -/
theorem empty {m' : Nat} (h : Makes P l l' m []) : Makes P l l' m' [] :=
  ⟨h.keeps, h.unstarred, h.within, fun _ hn => absurd hn List.not_mem_nil, h.upright⟩

theorem append (h : Makes P l l' m ns) (h' : Makes P l' l'' m ms) : Makes P l l'' m (ns ++ ms) := by
  refine ⟨fun name t ht => h'.keeps name t (h.keeps name t ht), h'.unstarred,
    List.forall_mem_append.mpr ⟨h.within, h'.within⟩,
    List.forall_mem_append.mpr ⟨h.level, h'.level⟩, fun hl => ?_⟩
  rcases h.upright hl with ⟨hl', hns⟩ | ⟨n, hn, hcross⟩
  · rcases h'.upright hl' with ⟨hl'', hms⟩ | ⟨n, hn, hcross⟩
    · exact .inl ⟨hl'', List.forall_mem_append.mpr ⟨fun n hn => (hns n hn).mono h'.keeps, hms⟩⟩
    · exact .inr ⟨n, List.mem_append_right _ hn, hcross⟩
  · exact .inr ⟨n, List.mem_append_left _ hn, hcross.mono h'.keeps⟩

/-- Other nodes are made of the nodes, in which the same copies cross, or new ones. -/
theorem rearrange {m' : Nat} (h : Makes P l l' m ns)
    (hwithin : ∀ n ∈ ms, n.Within Pointer.Unstarred)
    (hlevel : ∀ n ∈ ms, n.control.layoutPointer = Pointer.level m')
    (hupright : l'.Upright P → (∀ n ∈ ns, n.Upright P l') →
      (∀ n ∈ ms, n.Upright P l') ∨ ∃ n ∈ ms, n.Crossed P l')
    (hcrossed : ∀ n ∈ ns, n.Crossed P l' → ∃ n ∈ ms, n.Crossed P l') : Makes P l l' m' ms := by
  refine ⟨h.keeps, h.unstarred, hwithin, hlevel, fun hl => ?_⟩
  rcases h.upright hl with ⟨hl', hns⟩ | ⟨n, hn, hcross⟩
  · exact (hupright hl' hns).imp_left fun hms => ⟨hl', hms⟩
  · exact .inr (hcrossed n hn hcross)

theorem perm (h : Makes P l l' m ns) (hperm : ms.Perm ns) : Makes P l l' m ms := by
  refine h.rearrange (fun n hn => h.within n (hperm.mem_iff.mp hn))
    (fun n hn => h.level n (hperm.mem_iff.mp hn)) (fun _ hns => .inl ?_) ?_
  · exact fun n hn => hns n (hperm.mem_iff.mp hn)
  · exact fun n hn hcross => ⟨n, hperm.mem_iff.mpr hn, hcross⟩

theorem modify_left (h : Makes P l l' m (ns ++ ms)) (hf : KeepsPlace f)
    (hwithin : ∀ c, c.Within Pointer.Unstarred → (f c).Within Pointer.Unstarred) :
    Makes P l l' m (ns.map (·.modify f) ++ ms) := by
  obtain ⟨hns, hms⟩ := List.forall_mem_append.mp h.within
  obtain ⟨lns, lms⟩ := List.forall_mem_append.mp h.level
  refine h.rearrange ?_ ?_ (fun _ hall => .inl ?_) ?_
  · refine List.forall_mem_append.mpr ⟨List.forall_mem_map.mpr fun n hn => ?_, hms⟩
    exact (hns n hn).modify (hwithin _)
  · refine List.forall_mem_append.mpr ⟨List.forall_mem_map.mpr fun n hn => ?_, lms⟩
    rw [Node.control_modify, hf.layoutPointer, lns n hn]
  · obtain ⟨hns, hms⟩ := List.forall_mem_append.mp hall
    exact List.forall_mem_append.mpr
      ⟨List.forall_mem_map.mpr fun n hn => (hns n hn).modify hf, hms⟩
  · intro n hn hcross
    cases List.mem_append.mp hn with
    | inl hn =>
        exact ⟨_, List.mem_append_left _ (List.mem_map_of_mem hn), hcross.modify hf⟩
    | inr hn => exact ⟨n, List.mem_append_right _ hn, hcross⟩

theorem modify (h : Makes P l l' m ns) (hf : KeepsPlace f)
    (hwithin : ∀ c, c.Within Pointer.Unstarred → (f c).Within Pointer.Unstarred) :
    Makes P l l' m (ns.map (·.modify f)) := by
  rw [← List.append_nil ns] at h
  have hmodified := h.modify_left hf hwithin
  rwa [List.append_nil] at hmodified

/-- The nodes are put into a control right above them. -/
theorem around (h : Makes P l l' (m + 1) ns) (hc : c.layoutPointer = Pointer.level m)
    (hwithin : c.Within Pointer.Unstarred) : Makes P l l' m [.mk c ns] := by
  have hunder : ∀ n ∈ ns, c.Under n.control := by
    intro n hn
    rw [Control.Under, h.level n hn, hc]
    rfl
  refine h.rearrange ?_ ?_ (fun _ hns => .inl ?_) ?_
  · exact List.forall_mem_singleton.mpr (.mk hwithin h.within)
  · exact List.forall_mem_singleton.mpr hc
  · exact List.forall_mem_singleton.mpr (.around ⟨m, hc⟩ hns fun n hn => .inl (hunder n hn))
  · exact fun n hn hcross => ⟨_, List.mem_singleton_self _, hcross.child hn c⟩

end Makes

/-! ## Loose fields -/

/-- The grouping is one of the items of an array at the depth, and no pointer in it begins
with a star. -/
structure Stands (g : Grouping) (m : Nat) : Prop where
  array : g.array = Pointer.level m
  layout : g.layout = Pointer.level (m + 1)
  key : Pointer.Unstarred g.key
  item : Pointer.Unstarred g.item
  bound : g.item ≠ ""

theorem groupingFor_stands
    (hfolds : ∀ rule ∈ ctx.resolved.dataFolds, Pointer.RuleWritten rule)
    (hc : c.layoutPointer = Pointer.level m) (hwithin : c.Within Pointer.Unstarred) :
    Stands (groupingFor ctx c) m := by
  have hitem : Pointer.Unstarred (Pointer.anyItem (c.dataPointer.getD "")) :=
    hwithin.getD.slash _
  refine ⟨hc, ?_, unstarred_dataKey hfolds hitem, hitem, Pointer.slash_ne_empty _ _⟩
  show Pointer.anyItem (c.layoutPointer ++ "/items") = _
  rw [hc]
  rfl

theorem strictMono_moved (m : Nat) : StrictMono fun k => if m ≤ k then k + 1 else k := by
  intro i j hlt
  dsimp only
  split <;> split <;> omega

/-- A depth that is that of the array or below is one more when a field is moved. -/
theorem moved_layoutPointer (hg : Stands g m) {k : Nat} (hc : c.layoutPointer = Pointer.level k) :
    (g.moved c).layoutPointer = Pointer.level (if m ≤ k then k + 1 else k) := by
  simp only [Grouping.moved, hg.array, hg.layout, hc]
  by_cases hle : m ≤ k
  · obtain ⟨j, rfl⟩ := Nat.exists_eq_add_of_le hle
    have hstep : m + j + 1 = m + 1 + j := by omega
    rw [Pointer.dropStart?_level, if_pos hle, hstep, Pointer.level_add (m + 1) j]
  · rw [Pointer.dropStart?_level_of_lt (Nat.lt_of_not_le hle), if_neg hle]

theorem moved_within (hg : Stands g m) (hc : c.Within Pointer.Unstarred) :
    (g.moved c).Within Pointer.Unstarred := by
  intro a ha
  obtain ⟨b, hb, rfl⟩ := Option.map_eq_some_iff.mp ha
  split
  · exact hg.item.append_of_ne hg.bound _
  · exact hc b hb

theorem gathered_crossed {removable : Bool} {kind : ItemKind} {id : Nat} (hg : Stands g m)
    {n : Node} (hn : n ∈ ns) (h : n.Crossed P l) :
    (gathered ctx g removable kind id ns).Crossed P l := by
  refine Node.Crossed.child (n := n.map g.moved) ?_ ?_ _
  · rw [Node.mapAll_eq_map]
    exact List.mem_map_of_mem hn
  · exact h.shift (fun _ => rfl) (fun _ => rfl) (strictMono_moved m)
      fun _ _ hc => moved_layoutPointer hg hc

/-- Upright fields are upright together, or a copy in them crosses. -/
theorem gathered_upright {removable : Bool} {kind : ItemKind} {id : Nat} (hg : Stands g m)
    (hns : ∀ n ∈ ns, n.control.layoutPointer = Pointer.level (m + 1))
    (h : ∀ n ∈ ns, n.Upright P l) :
    (gathered ctx g removable kind id ns).Upright P l ∨
      (gathered ctx g removable kind id ns).Crossed P l := by
  -- If no copy crosses in a field, the field is erect and can be moved as a whole.
  by_cases hcross : ∃ n ∈ ns, n.Crossed P l
  · obtain ⟨n, hn, hcross⟩ := hcross
    exact .inr (gathered_crossed hg hn hcross)
  · refine .inl (.around ⟨m + 1, hg.layout⟩ ?_ ?_)
    all_goals
      rw [Node.mapAll_eq_map, List.forall_mem_map]
      intro n hn
      have herect : n.Erect :=
        (h n hn).erect_or_crossed.resolve_right fun hn' => hcross ⟨n, hn, hn'⟩
      obtain ⟨hmoved, hlevel⟩ := herect.shift (hns n hn) (m + 2) fun c k hc => by
        rw [moved_layoutPointer hg hc, if_pos (by omega)]
        congr 1
        omega
    · exact hmoved.upright hlevel
    · refine .inl ?_
      show (n.map g.moved).control.layoutPointer = Pointer.anyItem (g.layout ++ "/items")
      rw [hlevel, hg.layout]
      rfl

theorem gathered_within {removable : Bool} {kind : ItemKind} {id : Nat} (hg : Stands g m)
    (h : ∀ n ∈ ns, n.Within Pointer.Unstarred) :
    (gathered ctx g removable kind id ns).Within Pointer.Unstarred := by
  refine .mk ?_ ?_
  · intro a ha
    obtain rfl : g.item = a := Option.some.inj ha
    exact hg.item
  · rw [Node.mapAll_eq_map, List.forall_mem_map]
    exact fun n hn => (h n hn).map fun c hc => moved_within hg hc

theorem keptItem_keepsPlace (removable : Bool) : KeepsPlace (keptItem removable) :=
  ⟨fun _ => rfl, fun _ => rfl⟩

namespace Makes

/-- Some of the nodes are gathered. -/
theorem gather (h : Makes P l l' (m + 1) (ns ++ ms)) (hg : Stands g m) (removable : Bool)
    (kind : ItemKind) (id : Nat) :
    Makes P l l' (m + 1) (ns ++ [gathered ctx g removable kind id ms]) := by
  obtain ⟨hns, hms⟩ := List.forall_mem_append.mp h.within
  obtain ⟨lns, lms⟩ := List.forall_mem_append.mp h.level
  have hlast : gathered ctx g removable kind id ms ∈ ns ++ [gathered ctx g removable kind id ms] :=
    List.mem_append_right _ (List.mem_singleton_self _)
  refine h.rearrange ?_ ?_ (fun _ hall => ?_) ?_
  · exact List.forall_mem_append.mpr ⟨hns, List.forall_mem_singleton.mpr (gathered_within hg hms)⟩
  · exact List.forall_mem_append.mpr ⟨lns, List.forall_mem_singleton.mpr hg.layout⟩
  · obtain ⟨uns, ums⟩ := List.forall_mem_append.mp hall
    rcases gathered_upright hg lms ums with hup | hcross
    · exact .inl (List.forall_mem_append.mpr ⟨uns, List.forall_mem_singleton.mpr hup⟩)
    · exact .inr ⟨_, hlast, hcross⟩
  · intro n hn hcross
    cases List.mem_append.mp hn with
    | inl hn => exact ⟨n, List.mem_append_left _ hn, hcross⟩
    | inr hn => exact ⟨_, hlast, gathered_crossed hg hn hcross⟩

/-- What is not loose stays as it is, and what is loose is gathered. -/
theorem regroup (h : Makes P l p.templates (m + 1) ns) (hg : Stands g m) {removable : Bool}
    {bounds : ArrayBounds} {made : List Node}
    (hrun : (Compose.regroup ctx g removable bounds ns).Runs p made q) :
    Makes P l q.templates (m + 1) made := by
  obtain ⟨kept, rfl, hcases⟩ := runs_regroup hrun
  -- The children are the others and the fields, in another order.
  have hsplit : (ns.filter (!g.holds ·) ++ ns.filter g.holds).Perm ns :=
    List.perm_append_comm.trans (List.filter_append_perm _ _)
  have hkept := (h.perm hsplit).modify_left (keptItem_keepsPlace removable)
    fun c hc => hc.congr rfl
  rcases hcases with ⟨hnone, rfl, rfl⟩ | ⟨kind, rfl, rfl⟩
  · rwa [hnone, List.append_nil] at hkept
  · exact hkept.gather hg removable kind _

end Makes

/-! ## Offered templates -/

theorem fromItem_layoutPointer {k : Nat} (hc : c.layoutPointer = Pointer.level (m + 1 + k))
    (item : String) :
    (fromItem item (Pointer.level m ++ "/items") c).layoutPointer = Pointer.level (0 + k) := by
  have hdepth : m + 1 + k = m + (k + 1) := by omega
  simp only [fromItem, hc, hdepth, Pointer.dropStart?_items, Option.getD_some, Nat.zero_add]

theorem templateOf_within {n : Node} (h : n.Within Pointer.Unstarred) (item base : String)
    (relative : Bool) :
    (templateOf item base relative n).Within Pointer.Unstarred AnyPointer := by
  cases relative with
  | true => exact fun _ _ _ _ => trivial
  | false =>
      have hnode := h.modify (f := ({ · with recursive := false })) fun hc => hc.congr rfl
      exact hnode.map fun c hc => hc.congr rfl

/-- The template of an upright item is upright, or a copy in the item crosses. -/
theorem templateOf_upright {n : Node} (h : n.Upright P l)
    (hn : n.control.layoutPointer = Pointer.level (m + 1)) {name : String} (hasked : P name m)
    (item : String) (relative : Bool) :
    (templateOf item (Pointer.level m ++ "/items") relative n).Upright P l name ∨
      n.Crossed P l := by
  have hf : KeepsPlace fun c : Control => { c with recursive := relative } :=
    ⟨fun _ => rfl, fun _ => rfl⟩
  have hroot : (n.modify ({ · with recursive := relative })).control.layoutPointer =
      Pointer.level (m + 1) := by
    rw [Node.control_modify]
    exact hn
  cases relative with
  | false =>
      refine .inl ⟨Template.of_upright (h.modify hf), fun hrel => ?_, fun _ => ⟨m, hasked, ?_⟩⟩
      · exact absurd hrel Bool.false_ne_true
      · exact (Template.of_layoutPointer _ _).trans hroot
  | true =>
      refine h.erect_or_crossed.imp_left fun herect => ?_
      obtain ⟨hmoved, hlevel⟩ := (herect.modify hf).shift hroot 0
        fun c k hc => fromItem_layoutPointer hc item
      refine ⟨Template.of_upright (hmoved.upright hlevel), fun _ => ?_, fun hrel => ?_⟩
      · exact (Template.of_layoutPointer _ _).trans hlevel
      · exact absurd hrel.symm Bool.false_ne_true

theorem templateOf_layoutPointer (n : Node) (item base : String) :
    (templateOf item base false n).node.control.layoutPointer = n.control.layoutPointer := by
  rw [templateOf, Template.of_layoutPointer, if_neg Bool.false_ne_true, Node.control_modify]

namespace Makes

variable {array : Control} {name : String} {t : Template} {made : List Node}

theorem markOnly (h : Makes P l l' m ns) {item : String} (hitem : Pointer.Unstarred item)
    (orderable : Bool) (bounds : ArrayBounds) :
    Makes P l l' m (ns.map (·.modify (markOnlyItem item orderable bounds))) := by
  refine h.modify ⟨fun _ => rfl, fun _ => rfl⟩ fun c hc a ha => ?_
  rcases Option.or_eq_some_iff.mp ha with ha | ⟨-, ha⟩
  · exact hc a ha
  · obtain rfl := Option.some.inj ha
    exact hitem

theorem asItems (h : Makes P l p.templates (m + 1) ns) (hg : Stands g m) {bounds : ArrayBounds}
    (hrun : (Compose.asItems ctx g array bounds ns).Runs p made q) :
    Makes P l q.templates (m + 1) made := by
  rcases runs_asItems hrun with ⟨only, orderable, rfl, rfl, rfl⟩ | hrun
  · exact h.markOnly (unstarred_generic ctx hg.key) orderable bounds
  · exact h.regroup hg hrun

theorem storeOffered (h : Makes P l p.templates (m + 1) ns)
    (harray : array.layoutPointer = Pointer.level m) (hasked : P name m) {addable : Bool} {u : Unit}
    (hrun : (Compose.storeOffered name addable (offered? ctx g array ns)).Runs p u q) :
    Makes P l q.templates (m + 1) ns := by
  rcases runs_storeOffered hrun with ⟨rfl, -⟩ | ⟨hname, t, ht, rfl⟩
  · exact h
  · obtain ⟨last, hlast, rfl⟩ := Option.map_eq_some_iff.mp ht
    have hmem := List.mem_of_getLast? hlast
    have hkeeps := Library.keeps_store hname (templateOf g.item (array.layoutPointer ++ "/items")
      (fillName ctx g != g.item) last)
    refine ⟨fun other stored hs => hkeeps other stored (h.keeps other stored hs),
      h.unstarred.store (templateOf_within (h.within last hmem) _ _ _), h.within, h.level,
      fun hl => ?_⟩
    rcases h.upright hl with ⟨hp, hns⟩ | ⟨n, hn, hcross⟩
    · rcases templateOf_upright (hns last hmem) (h.level last hmem) hasked g.item
        (fillName ctx g != g.item) with ht | hcross
      · rw [← harray] at ht
        exact .inl ⟨hp.store hname ht, fun n hn => (hns n hn).mono hkeeps⟩
      · exact .inr ⟨last, hmem, hcross.mono hkeeps⟩
    · exact .inr ⟨n, hn, hcross.mono hkeeps⟩

/-- The nodes are put into an array right above them, with more nodes that lie in it. -/
theorem fill (h : Makes P l l' (m + 1) ns) (harray : array.layoutPointer = Pointer.level m)
    (hwithin : array.Within Pointer.Unstarred) (hms : ∀ n ∈ ms, n.Within Pointer.Unstarred)
    (hupright : l'.Upright P → (∀ n ∈ ns, n.Upright P l') →
      (∀ n ∈ ms, n.Upright P l' ∧ Lies P l' array n.control) ∨ ∃ n ∈ ns, n.Crossed P l') :
    Makes P l l' m [.mk array (ns ++ ms)] := by
  have hcrossed : ∀ n ∈ ns, n.Crossed P l' →
      ∃ n ∈ [Node.mk array (ns ++ ms)], n.Crossed P l' := by
    intro n hn hcross
    exact ⟨_, List.mem_singleton_self _, hcross.child (List.mem_append_left _ hn) array⟩
  refine h.rearrange ?_ ?_ (fun hl hns => ?_) hcrossed
  · exact List.forall_mem_singleton.mpr
      (.mk hwithin (List.forall_mem_append.mpr ⟨h.within, hms⟩))
  · exact List.forall_mem_singleton.mpr harray
  · rcases hupright hl hns with hms | ⟨n, hn, hcross⟩
    · refine .inl (List.forall_mem_singleton.mpr (.around ⟨m, harray⟩ ?_ ?_))
      · exact List.forall_mem_append.mpr ⟨hns, fun n hn => (hms n hn).1⟩
      · refine List.forall_mem_append.mpr ⟨fun n hn => .inl ?_, fun n hn => (hms n hn).2⟩
        rw [Control.Under, h.level n hn, harray]
        rfl
    · exact .inr (hcrossed n hn hcross)

/-- The template is stored under the name, or is the one that an array with the nodes has
to offer. -/
def Source (ctx : Setup) (g : Grouping) (array : Control) (l : Library) (ns : List Node)
    (name : String) (t : Template) : Prop :=
  l.template? name = some t ∨ offered? ctx g array ns = some t

theorem source_within (h : Makes P l l' (m + 1) ns) (ht : Source ctx g array l' ns name t) :
    t.Within Pointer.Unstarred AnyPointer := by
  rcases ht with ht | ht
  · exact h.unstarred name t (Library.template?_mem ht)
  · obtain ⟨last, hlast, rfl⟩ := Option.map_eq_some_iff.mp ht
    exact templateOf_within (h.within last (List.mem_of_getLast? hlast)) _ _ _

/-- Copies of the template lie in the array, or a copy in the nodes crosses. -/
theorem source_lies (h : Makes P l l' (m + 1) ns) (hg : Stands g m)
    (harray : array.layoutPointer = Pointer.level m) (htype : array.dataType = some "array")
    (hasked : P name m) (ht : Source ctx g array l' ns name t) (hl : l'.Upright P)
    (hns : ∀ n ∈ ns, n.Upright P l') :
    (∀ last, (t.place ⟨g.item, g.layout⟩ last).1.Upright P l' ∧
      Lies P l' array (t.place ⟨g.item, g.layout⟩ last).1.control) ∨ ∃ n ∈ ns, n.Crossed P l' := by
  let site : Site := ⟨g.item, g.layout⟩
  have hsite : site.layoutPointer = Pointer.level (m + 1) := hg.layout
  rcases ht with ht | ht
  -- A stored template may have been built for an array at another depth.
  · have hup := hl name t (Library.template?_mem ht)
    exact .inl fun last => ⟨hup.place site hsite last,
      hup.place_stored ht htype harray hasked site hsite last⟩
  -- An offered one need not be stored, but its root is at the depth of the nodes.
  · obtain ⟨last, hlast, rfl⟩ := Option.map_eq_some_iff.mp ht
    have hmem := List.mem_of_getLast? hlast
    have hoffered := templateOf_upright (hns last hmem) (h.level last hmem) hasked g.item
      (fillName ctx g != g.item)
    rw [← harray] at hoffered
    rcases hoffered with hup | hcross
    · refine .inl fun count => ⟨hup.place site hsite count, .inl ?_⟩
      suffices hlevel : (Template.place _ site count).1.control.layoutPointer =
          Pointer.level (m + 1) by
        rw [Control.Under, hlevel, harray]
        rfl
      rcases hup.place_root site hsite count with ⟨-, hlevel⟩ | ⟨hrel, hlevel, -⟩
      · exact hlevel
      · have habsolute : (fillName ctx g != g.item) = false := hrel
        rw [hlevel, habsolute, templateOf_layoutPointer, h.level last hmem]
    · exact .inr ⟨last, hmem, hcross⟩

theorem fillFrom (h : Makes P l p.templates (m + 1) ns) (hg : Stands g m)
    (harray : array.layoutPointer = Pointer.level m) (htype : array.dataType = some "array")
    (hwithin : array.Within Pointer.Unstarred) (hasked : P name m)
    (ht : Source ctx g array p.templates ns name t) {bounds : ArrayBounds} {existing : Nat}
    {dataPointer : String}
    (hrun : (Compose.fillFrom ctx g array bounds existing dataPointer name t ns).Runs p made q) :
    Makes P l q.templates m [.mk array made] := by
  obtain ⟨count, more, s, hcopies, hmade⟩ := runs_fillFrom hrun
  obtain ⟨⟨last, rfl⟩, hplaced⟩ := runs_copies hcopies
  obtain ⟨added, hmade, htemplates, hadded⟩ : ∃ added, made = ns ++ (more ++ added) ∧
      q.templates = p.templates ∧ ∀ n ∈ added, ∃ label id,
        n = Generate.addControl ctx array name (name != g.item) label bounds id := by
    rcases hmade with ⟨rfl, rfl⟩ | ⟨-, label, rfl, rfl⟩
    · exact ⟨[], by rw [List.append_nil], rfl, fun n hn => absurd hn List.not_mem_nil⟩
    · exact ⟨_, by rw [List.append_assoc], rfl,
        fun n hn => ⟨label, _, List.mem_singleton.mp hn⟩⟩
  rw [hmade, htemplates]
  refine h.fill harray hwithin (List.forall_mem_append.mpr ⟨?_, ?_⟩) fun hl hns => ?_
  · intro n hn
    obtain ⟨last, rfl⟩ := hplaced n hn
    exact Generate.place_within (unstarred_reaches ctx) (h.source_within ht) hg.item hg.bound last
  · intro n hn
    obtain ⟨label, id, rfl⟩ := hadded n hn
    refine Node.Within.leaf fun a ha => ?_
    obtain ⟨b, hb, rfl⟩ := Option.map_eq_some_iff.mp ha
    exact (hwithin b hb).slash _
  · refine (h.source_lies hg harray htype hasked ht hl hns).imp_left fun hlies => ?_
    refine List.forall_mem_append.mpr ⟨?_, ?_⟩
    · intro n hn
      obtain ⟨last, rfl⟩ := hplaced n hn
      exact hlies last
    · intro n hn
      obtain ⟨label, id, rfl⟩ := hadded n hn
      refine ⟨.leaf ⟨m + 1, ?_⟩, .inl rfl⟩
      show Pointer.anyItem (array.layoutPointer ++ "/items") = _
      rw [harray]
      rfl

/-- **Arrays.**  What is laid out in an array with children, which asks for the name of its
items, stands in it, or a copy in it crosses. -/
theorem expandArray {n made : Node}
    (hfolds : ∀ rule ∈ ctx.resolved.dataFolds, Pointer.RuleWritten rule)
    (h : Makes P l p.templates (m + 1) n.items) (hn : n.control.layoutPointer = Pointer.level m)
    (htype : n.control.dataType = some "array") (hwithin : n.control.Within Pointer.Unstarred)
    (hasked : P (fillName ctx (groupingFor ctx n.control)) m) {bounds : ArrayBounds}
    {existing : Nat} (hrun : (Compose.expandArray ctx bounds existing n).Runs p made q) :
    Makes P l q.templates m [made] := by
  obtain ⟨items, s, filled, hitems, hfill, rfl⟩ := runs_expandArray hrun
  have hg := groupingFor_stands hfolds hn hwithin
  obtain ⟨s', u, hstore, hfill⟩ := runs_fillArray hfill
  have hgrouped : Makes P l s.templates (m + 1) items := by
    refine asItems ?_ hg hitems
    exact h
  have hstored := hgrouped.storeOffered hn hasked hstore
  rcases hfill with ⟨rfl, rfl⟩ | ⟨t, ht, hfill⟩
  · exact hstored.around hn hwithin
  · exact hstored.fillFrom hg hn htype hwithin hasked ht hfill

end Makes

end Compose

end SchemaForm
