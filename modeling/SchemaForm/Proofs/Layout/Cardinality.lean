/-
How many items arrays have.

An array at any depth of a form has at most as many items as the bounds allow that it was
built with, and these are among its options (`Form.arrays_meet`).  The exception are arrays
of type `$ref`: one that is the last item of another array is told the limits of that one.
-/
import SchemaForm.Proofs.Layout.Filling
import SchemaForm.Proofs.Layout.Sizes

namespace SchemaForm

open Build

/-! ## Controls with the number of their items -/

namespace Node

mutual

/-- The controls, each with the number of nodes right below it. -/
def itemCounts : Node → List (Control × Nat)
  | mk c items => (c, items.length) :: itemCountsAll items

def itemCountsAll : List Node → List (Control × Nat)
  | [] => []
  | n :: rest => itemCounts n ++ itemCountsAll rest

end

variable {n : Node} {ns : List Node} {x : Control × Nat} {c : Control} {f : Control → Control}

theorem mem_itemCountsAll : x ∈ itemCountsAll ns ↔ ∃ n ∈ ns, x ∈ n.itemCounts := by
  induction ns with
  | nil => simp [itemCountsAll]
  | cons n ns ih => simp [itemCountsAll, ih]

theorem mem_itemCounts_mk :
    x ∈ (mk c ns).itemCounts ↔ x = (c, ns.length) ∨ ∃ n ∈ ns, x ∈ n.itemCounts := by
  rw [itemCounts, List.mem_cons, mem_itemCountsAll]

theorem control_mem_itemCounts (n : Node) : (n.control, n.items.length) ∈ n.itemCounts := by
  cases n
  exact List.mem_cons_self

theorem mem_itemCounts_modify (h : x ∈ (n.modify f).itemCounts) :
    x = (f n.control, n.items.length) ∨ x ∈ n.itemCounts := by
  cases n with
  | mk d items =>
      rcases mem_itemCounts_mk.mp h with rfl | hitems
      · exact .inl rfl
      · exact .inr (mem_itemCounts_mk.mpr (.inr hitems))

theorem length_mapAll (f : Control → Control) (ns : List Node) :
    (mapAll f ns).length = ns.length := by
  rw [mapAll_eq_map, List.length_map]

mutual

theorem itemCounts_map (f : Control → Control) :
    ∀ n : Node, (n.map f).itemCounts = n.itemCounts.map (Prod.map f id)
  | mk c items => by
      rw [map, itemCounts, itemCounts, length_mapAll, itemCountsAll_mapAll f items, List.map_cons]
      rfl

theorem itemCountsAll_mapAll (f : Control → Control) :
    ∀ ns : List Node, itemCountsAll (mapAll f ns) = (itemCountsAll ns).map (Prod.map f id)
  | [] => rfl
  | n :: ns => by
      rw [mapAll, itemCountsAll, itemCountsAll, itemCounts_map f n, itemCountsAll_mapAll f ns,
        List.map_append]

end

end Node

namespace Template

variable {t : Template} {site : Site} {x : Control × Nat}

theorem length_placeAll (ns : List Node) (last : Nat) :
    (t.placeAll site last ns).1.length = ns.length := by
  induction ns generalizing last with
  | nil => rfl
  | cons n ns ih =>
      rw [placeAll, List.length_cons, List.length_cons]
      exact congrArg (· + 1) (ih _)

mutual

/-- A copy has as many items as what is copied. -/
theorem mem_itemCounts_placeNode :
    ∀ (n : Node) (last : Nat), x ∈ (t.placeNode site last n).1.itemCounts →
      ∃ first ∈ n.itemCounts, ∃ id, x = (t.placedControl site id first.1, first.2)
  | .mk d items, last, h => by
      rcases Node.mem_itemCounts_mk.mp h with rfl | h
      · exact ⟨_, List.mem_cons_self, _, by rw [length_placeAll]⟩
      · obtain ⟨first, hfirst, hplaced⟩ :=
          mem_itemCounts_placeAll items last (Node.mem_itemCountsAll.mpr h)
        exact ⟨first, List.mem_cons_of_mem _ hfirst, hplaced⟩

theorem mem_itemCounts_placeAll :
    ∀ (ns : List Node) (last : Nat), x ∈ Node.itemCountsAll (t.placeAll site last ns).1 →
      ∃ first ∈ Node.itemCountsAll ns, ∃ id, x = (t.placedControl site id first.1, first.2)
  | [], _, h => absurd h List.not_mem_nil
  | n :: rest, last, h => by
      cases List.mem_append.mp h with
      | inl h =>
          obtain ⟨first, hfirst, hplaced⟩ := mem_itemCounts_placeNode n last h
          exact ⟨first, List.mem_append_left _ hfirst, hplaced⟩
      | inr h =>
          obtain ⟨first, hfirst, hplaced⟩ := mem_itemCounts_placeAll rest _ h
          exact ⟨first, List.mem_append_right _ hfirst, hplaced⟩

end

end Template

/-! ## Arrays at any depth -/

namespace Generate

variable {ctx : Setup} {build : Builder} {r : Request} {p q : Progress} {site : ArraySite}
  {schema : Json} {c : Control} {bounds : ArrayBounds} {items made : List Node} {n : Node}
  {S : Request → Prop} {f : Control → Control}

/-- The control can have been made for the request: its data pointer is the one of the
request, behind the places that copies of it were continued from, and it is a reference only
if the schema of the request says so. -/
structure MadeFor (ctx : Setup) (r : Request) (c : Control) : Prop where
  place : ∃ above, c.dataPointer = some (above ++ ctx.generic r.dataPointer)
  reference : c.isReference = true →
    (ctx.resolved.schemaAt? r.schemaPointer).bind (Schema.controlType? · []) = some "$ref"

theorem MadeFor.congr (h : MadeFor ctx r c) {d : Control}
    (hplace : ∃ above, d.dataPointer = c.dataPointer.map (above ++ ·))
    (href : d.isReference = c.isReference) : MadeFor ctx r d := by
  obtain ⟨above, hc⟩ := h.place
  obtain ⟨before, hd⟩ := hplace
  refine ⟨⟨before ++ above, ?_⟩, fun hd => h.reference (href.symm.trans hd)⟩
  rw [hd, hc, Option.map_some, String.append_assoc]

theorem Answers.madeFor (h : Answers ctx S r schema c) (options : Members) :
    MadeFor ctx r { c with options } := by
  have hfound := h.found
  obtain ⟨type, id, htype, rfl⟩ := h.control
  refine ⟨⟨"", ?_⟩, fun href => ?_⟩
  · rw [String.empty_append]
    exact controlFor_dataPointer ctx r schema type id
  · have hname : (controlFor ctx r schema type id).type = "$ref" := beq_iff_eq.mp href
    rw [hfound, Option.bind_some, htype, ← hname, controlFor_type]

/-- The number of items is within the bounds that the array was built with, for a request
that it can have been made for, and these are among the options of its control, unless that
is a reference. -/
def Meets (ctx : Setup) (S : Request → Prop) (c : Control) (count : Nat) : Prop :=
  c.isArray = true → ∃ r b, Sizes ctx S r b ∧ MadeFor ctx r c ∧ count ≤ b.maxItems ∧
    (c.isReference = false → c.HasBounds b)

theorem samePlace (place : Option String) : ∃ above, place = place.map (above ++ ·) := by
  refine ⟨"", ?_⟩
  simp only [String.empty_append, Option.map_id']

theorem KeepsArrays.samePlace (hf : KeepsArrays f) (c : Control) :
    ∃ above, (f c).dataPointer = c.dataPointer.map (above ++ ·) := by
  rw [hf.dataPointer]
  exact Generate.samePlace _

/-- All arrays in the node are within their bounds. -/
def Fitted (ctx : Setup) (S : Request → Prop) (n : Node) : Prop :=
  ∀ x ∈ n.itemCounts, Meets ctx S x.1 x.2

theorem Meets.congr {count : Nat} (h : Meets ctx S c count) {d : Control}
    (hplace : ∃ above, d.dataPointer = c.dataPointer.map (above ++ ·))
    (harray : d.isArray = c.isArray) (href : d.isReference = c.isReference)
    (hb : c.isReference = false → ∀ b, c.HasBounds b → d.HasBounds b) : Meets ctx S d count := by
  intro hd
  obtain ⟨r, b, hsizes, hmade, hcount, hbounds⟩ := h (harray.symm.trans hd)
  refine ⟨r, b, hsizes, hmade.congr hplace href, hcount, fun hplain => ?_⟩
  have hplain' : c.isReference = false := href.symm.trans hplain
  exact hb hplain' b (hbounds hplain')

theorem Fitted.leaf (h : c.isArray = false) : Fitted ctx S (.mk c []) := by
  intro x hx
  rcases Node.mem_itemCounts_mk.mp hx with rfl | ⟨n, hn, -⟩
  · intro harray
    exact absurd (h.symm.trans harray) Bool.false_ne_true
  · exact absurd hn List.not_mem_nil

theorem Fitted.around (hc : Meets ctx S c items.length) (h : ∀ n ∈ items, Fitted ctx S n) :
    Fitted ctx S (.mk c items) := by
  intro x hx
  rcases Node.mem_itemCounts_mk.mp hx with rfl | ⟨n, hn, hx⟩
  · exact hc
  · exact h n hn x hx

theorem Fitted.modify (h : Fitted ctx S n) (hf : KeepsArrays f)
    (hb : n.control.isReference = false → ∀ b, n.control.HasBounds b → (f n.control).HasBounds b) :
    Fitted ctx S (n.modify f) := by
  intro x hx
  rcases Node.mem_itemCounts_modify hx with rfl | hx
  · exact (h _ (Node.control_mem_itemCounts n)).congr (hf.samePlace _) (hf.isArray _)
      (hf.isReference _) hb
  · exact h x hx

theorem Fitted.map (h : Fitted ctx S n) (hf : KeepsArrays f)
    (hb : ∀ c b, c.HasBounds b → (f c).HasBounds b) : Fitted ctx S (n.map f) := by
  intro x hx
  rw [Node.itemCounts_map] at hx
  obtain ⟨first, hfirst, rfl⟩ := List.mem_map.mp hx
  exact (h first hfirst).congr (hf.samePlace _) (hf.isArray _) (hf.isReference _) fun _ => hb _

/-- A copy fits where the template does. -/
theorem Fitted.place {t : Template} (h : Fitted ctx S t.node) (at' : Site) (last : Nat) :
    Fitted ctx S (t.place at' last).1 := by
  intro x hx
  obtain ⟨first, hfirst, id, rfl⟩ := Template.mem_itemCounts_placeNode t.node last hx
  have hsame : ∀ c, (t.placedControl at' id c).isArray = c.isArray ∧
      (t.placedControl at' id c).isReference = c.isReference ∧
      (t.placedControl at' id c).options = c.options := by
    intro c
    unfold Template.placedControl
    split <;> exact ⟨rfl, rfl, rfl⟩
  have hplace : ∀ c, ∃ above,
      (t.placedControl at' id c).dataPointer = c.dataPointer.map (above ++ ·) := by
    intro c
    unfold Template.placedControl
    split
    · exact ⟨at'.dataPointer, rfl⟩
    · exact samePlace c.dataPointer
  obtain ⟨harray, href, hoptions⟩ := hsame first.1
  exact (h first hfirst).congr (hplace _) harray href fun _ b hb => hb.congr hoptions

/-- A node is stored as it is, up to marks that are no bounds. -/
theorem Fitted.stored (h : Fitted ctx S n) (relative : Bool) :
    Fitted ctx S (Template.of (storedNode relative n) relative).node := by
  have hstored : Fitted ctx S (storedNode relative n) := by
    unfold storedNode
    split
    · exact h.modify ⟨fun _ => rfl, fun _ => rfl, fun _ => rfl, fun _ => rfl⟩
        fun _ b hb => hb.congr rfl
    · exact h
  exact hstored.map ⟨fun _ => rfl, fun _ => rfl, fun _ => rfl, fun _ => rfl⟩
    fun c b hb => hb.congr rfl

/-- All stored templates fit. -/
def Stores (ctx : Setup) (S : Request → Prop) (l : Library) : Prop :=
  ∀ name t, (name, some t) ∈ l → Fitted ctx S t.node

/-- The nodes fit, and all templates stored meanwhile. -/
structure Fit (ctx : Setup) (S : Request → Prop) (q : Progress) (nodes : List Node) : Prop where
  templates : Stores ctx S q.templates
  nodes : ∀ n ∈ nodes, Fitted ctx S n

/-- A builder gives nodes that fit, for all requests that come up. -/
def Keeping (ctx : Setup) (S : Request → Prop) (build : Builder) : Prop :=
  ∀ {r p mapped q}, Comes ctx S r → Stores ctx S p.templates → (build r).Runs p mapped q →
    Fit ctx S q mapped.toList

theorem Fit.none (h : Stores ctx S q.templates) : Fit ctx S q [] :=
  ⟨h, fun _ hn => absurd hn List.not_mem_nil⟩

theorem Fit.append {nodes : List Node} (h : ∀ n ∈ nodes, Fitted ctx S n)
    (h' : Fit ctx S q made) : Fit ctx S q (nodes ++ made) := by
  refine ⟨h'.templates, fun n hn => ?_⟩
  cases List.mem_append.mp hn with
  | inl hn => exact h n hn
  | inr hn => exact h'.nodes n hn

theorem Fit.one (h : Stores ctx S q.templates) (hn : Fitted ctx S n) : Fit ctx S q [n] := by
  refine ⟨h, fun m hm => ?_⟩
  rw [List.mem_singleton.mp hm]
  exact hn

/-! ### Objects -/

theorem markRequired_fit {required : Bool} {nodes : List Node} (h : Fit ctx S p nodes)
    (hrun : (markRequired required nodes).Runs p made q) : Fit ctx S q made := by
  rcases runs_markRequired hrun with ⟨rfl, rfl⟩ | ⟨rfl, rfl⟩
  · exact h
  · refine ⟨h.templates, fun n hn => ?_⟩
    obtain ⟨m, hm, rfl⟩ := List.mem_map.mp hn
    exact (h.nodes m hm).modify (keepsArrays_setOption _ _)
      fun _ b hb => hb.setOption (by decide) _

theorem buildProperties_fit (hb : Keeping ctx S build) (hr : Comes ctx S r)
    (hschema : r.Reads ctx "object" schema)
    (hp : Stores ctx S p.templates)
    (h : (buildProperties build r schema r.layout).Runs p made q) : Fit ctx S q made := by
  rcases runs_buildProperties h with ⟨rfl, rfl⟩ | ⟨properties, parts, hproperties, hm, rfl⟩
  · exact .none hp
  · refine runs_mapM (R := fun p parts q => Stores ctx S p.templates →
      Fit ctx S q parts.flatten) ?_ ?_ hm hp
    · intro p hp
      exact .none hp
    · intro name hname p part s parts q hpart hparts hp
      obtain ⟨mapped, s', required, hbuilt, hmark⟩ := runs_buildProperty hpart
      have hcomes := Comes.property hr hschema hproperties hname
      have hmarked := markRequired_fit (hb hcomes hp hbuilt) hmark
      exact (hparts hmarked.templates).append hmarked.nodes

/-! ### Templates -/

theorem ensureTemplate_stores (hb : Keeping ctx S build) (hr : Comes ctx S r) {name : String}
    {relative : Bool} (hp : Stores ctx S p.templates) {u : Unit}
    (h : (ensureTemplate build name relative r).Runs p u q) : Stores ctx S q.templates := by
  rcases runs_ensureTemplate h with ⟨-, rfl⟩ | ⟨-, mapped, s, hbuilt, rfl⟩
  · exact hp
  · have hreserved : Stores ctx S (p.templates.reserve name) := by
      intro other t hm
      cases Table.mem_insert hm with
      | inl he => cases he
      | inr hm => exact hp other t hm
    have hmade := hb hr (p := { p with templates := p.templates.reserve name }) hreserved hbuilt
    intro other t hm
    rcases Library.mem_settled hm with hm | ⟨rfl, n, hn, rfl⟩
    · exact hmade.templates other t hm
    · exact (hmade.nodes n (List.mem_of_getLast? hn)).stored relative

theorem instantiate_fit {name : String} {at' : Site} {found : Option Node}
    (hp : Stores ctx S p.templates) (h : (instantiate name at').Runs p found q) :
    Fit ctx S q found.toList := by
  rcases runs_instantiate.mp h with ⟨-, rfl, rfl⟩ | ⟨t, n, ht, hn, rfl⟩
  · exact .none hp
  · obtain ⟨rfl, rfl⟩ := runs_placed.mp hn
    exact .one hp ((hp name t (Library.template?_mem ht)).place at' _)

/-! ### Arrays -/

variable {tuple : List Json} {removable : Bool}

theorem buildTupleItem_fit (hb : Keeping ctx S build) (hr : Comes ctx S r)
    (hschema : r.Reads ctx "array" schema)
    (htuple : (schema.get? "items").bind Json.arr? = some tuple) {index : Nat}
    (hindex : index < tuple.length) (hp : Stores ctx S p.templates) {found : Option Node}
    (h : (buildTupleItem build r (itemSite ctx r) bounds removable index).Runs p found q) :
    Fit ctx S q found.toList := by
  rcases runs_buildTupleItem h with ⟨s, u, he, hi⟩ | ⟨mapped, hbuilt, rfl⟩
  · exact instantiate_fit (ensureTemplate_stores hb (.tuple hr hschema htuple hindex) hp he) hi
  · have hmade := hb (.fixed hr hschema htuple hindex) hp hbuilt
    refine ⟨hmade.templates, fun n hn => ?_⟩
    exact hmade.nodes n (List.mem_of_getLast? (Option.mem_toList.mp hn))

theorem buildTuple_fit (hb : Keeping ctx S build) (hr : Comes ctx S r)
    (hschema : r.Reads ctx "array" schema)
    (hp : Stores ctx S p.templates)
    (h : (buildTuple build r (itemSite ctx r) schema bounds removable).Runs p made q) :
    Fit ctx S q made := by
  rcases runs_buildTuple h with ⟨rfl, rfl⟩ | ⟨tuple, parts, htuple, hm, rfl⟩
  · exact .none hp
  · refine runs_mapM (R := fun p parts q => Stores ctx S p.templates →
      Fit ctx S q (parts.filterMap id)) ?_ ?_ hm hp
    · intro p hp
      exact .none hp
    · intro index hindex p part s parts q hpart hparts hp
      have hlt : index < tuple.length :=
        Nat.lt_of_lt_of_le (List.mem_range.mp hindex) (Nat.min_le_right _ _)
      have hfirst := buildTupleItem_fit hb hr hschema htuple hlt hp hpart
      have hsplit : (part :: parts).filterMap id = part.toList ++ parts.filterMap id := by
        cases part <;> rfl
      rw [hsplit]
      exact (hparts hfirst.templates).append hfirst.nodes

theorem fillItems_fit {name : String} {at' : Site} {count : Nat} (hp : Fit ctx S p items)
    (h : (fillItems name at' count items).Runs p made q) : Fit ctx S q made := by
  rcases runs_fillItems h with ⟨rfl, rfl⟩ | ⟨t, more, ht, hc, rfl⟩
  · exact hp
  · obtain ⟨⟨last, rfl⟩, hcopies⟩ := runs_copies hc
    refine .append hp.nodes ⟨hp.templates, fun n hn => ?_⟩
    obtain ⟨last', rfl⟩ := hcopies n hn
    exact (hp.templates name t (Library.template?_mem ht)).place at' last'

/-- Limits are told to references only. -/
theorem limitLast_fitted (h : ∀ n ∈ items, Fitted ctx S n) (bounds : ArrayBounds) :
    ∀ n ∈ limitLast bounds items, Fitted ctx S n := by
  intro n hn
  unfold limitLast at hn
  split at hn
  · next last hlast =>
      have hmem := List.mem_of_getLast? hlast
      split at hn
      · next href =>
          cases List.mem_append.mp hn with
          | inl hn => exact h n (List.mem_of_mem_dropLast hn)
          | inr hn =>
              rw [List.mem_singleton.mp hn]
              refine (h last hmem).modify (keepsArrays_withLimits bounds) fun hplain => ?_
              exact absurd (hplain.symm.trans href) Bool.false_ne_true
      · exact h n hn
  · exact h n hn

theorem Closes.fitted (h : Closes ctx site c bounds items made)
    (hitems : ∀ n ∈ items, Fitted ctx S n) : ∀ n ∈ made, Fitted ctx S n := by
  unfold Closes at h
  split at h
  · obtain ⟨label, id, rfl⟩ := h
    intro n hn
    cases List.mem_append.mp hn with
    | inl hn => exact hitems n hn
    | inr hn =>
        rw [List.mem_singleton.mp hn]
        exact .leaf rfl
  · rw [h]
    exact limitLast_fitted hitems bounds

theorem buildList_fit (hb : Keeping ctx S build) (hr : Comes ctx S r)
    (hschema : r.Reads ctx "array" schema) {keyword : String}
    (hkeyword : listKeyword? schema = some keyword) (hp : Fit ctx S p items)
    (h : (buildList ctx build r (itemSite ctx r) schema c bounds keyword items).Runs p made q) :
    Fit ctx S q made := by
  obtain ⟨s, s', filled, count, u, he, hf, ha⟩ := runs_buildList h
  have hstored := ensureTemplate_stores hb (.list _ hr hschema hkeyword) hp.templates he
  have hfilled := fillItems_fit ⟨hstored, hp.nodes⟩ hf
  obtain ⟨hkept, hcloses⟩ := withAddControl_closes ha
  exact ⟨hkept ▸ hfilled.templates, hcloses.fitted hfilled.nodes⟩

theorem buildArray_fit (hb : Keeping ctx S build) (ha : Answers ctx S r schema c)
    (ht : c.dataType = some "array") (hp : Stores ctx S p.templates)
    (h : (buildArray ctx build r schema c).Runs p n q) : Fit ctx S q [n] := by
  have hlength := length_buildArray_le h
  have hmeets : Meets ctx S (boundedControl ctx r schema c) n.items.length := fun _ =>
    ⟨r, _, ⟨schema, c, ha, ht, rfl⟩, ha.madeFor _, hlength,
      fun _ => ArrayBounds.writeOptions_hasBounds (boundsFor ctx r schema c) c⟩
  obtain ⟨site, items, made, s, hsite, htuple, rfl, s', rfl, h⟩ := runs_buildArray h
  obtain rfl : site = itemSite ctx r := hsite.trans (arraySite_eq ha.layoutPointer)
  have hreads := ha.reads ht
  have hitems := buildTuple_fit hb ha.comes hreads hp htuple
  have hnoted : Fit ctx S { s with
      dataMap := s.dataMap.update (boundsKey ctx r)
        (DataEntry.withBounds (boundsFor ctx r schema c)) } items :=
    ⟨hitems.templates, hitems.nodes⟩
  have hmade : Fit ctx S q made := by
    rcases h with ⟨-, rfl, rfl⟩ | ⟨keyword, hkeyword, hl⟩
    · exact hnoted
    · exact buildList_fit hb ha.comes hreads hkeyword hnoted hl
  exact .one hmade.templates (.around hmeets hmade.nodes)

/-! ### Nodes -/

theorem complete_fit (hb : Keeping ctx S build) (ha : Answers ctx S r schema c)
    (hp : Stores ctx S p.templates) {mapped : Mapped Node}
    (h : (complete ctx build r schema c).Runs p mapped q) : Fit ctx S q mapped.toList := by
  rcases runs_complete h with ⟨ht, children, hchildren, rfl⟩ | ⟨hboxes, options, rfl, rfl⟩ |
      ⟨ht, n, hn, rfl⟩ | ⟨ht, made, hm, rfl⟩
  · rw [ha.layoutPointer] at hchildren
    have hmade := buildProperties_fit hb ha.comes (ha.reads ht) hp hchildren
    split
    · exact hmade
    · refine .one hmade.templates (.around (fun harray => ?_) hmade.nodes)
      have hnone : c.isArray = false := isArray_of_ne (by rw [ht]; decide)
      exact absurd (hnone.symm.trans harray) Bool.false_ne_true
  · exact .one hp (.leaf (isArray_leaf hboxes options))
  · exact buildArray_fit hb ha ht hp hn
  · obtain ⟨rfl, u, he⟩ := runs_buildReference hm
    have hstored := ensureTemplate_stores hb (.target _ ha.comes (ha.reads ht)) hp he
    exact .one hstored (.leaf (isArray_reference ht _))

theorem buildSchema_fit (hb : Keeping ctx S build) (hr : Comes ctx S r)
    (hschema : ctx.resolved.schemaAt? r.schemaPointer = some schema) {type : String}
    (htype : Schema.controlType? schema [] = some type) (hp : Stores ctx S p.templates)
    {mapped : Mapped Node} (h : (buildSchema ctx build r schema type).Runs p mapped q) :
    Fit ctx S q mapped.toList := by
  obtain ⟨id, s, hs, hc⟩ := runs_buildSchema h
  have ha : Answers ctx S r schema (controlFor ctx r schema type id) :=
    ⟨hr, hschema, type, id, htype, rfl⟩
  refine complete_fit hb ha ?_ hc
  rcases hs with ⟨-, -, rfl⟩ | ⟨-, -, rfl⟩ <;> exact hp

/-- **The walk.**  All that the builder gives fits, and all that it stores. -/
theorem run_fits : Keeping ctx S (run ctx) := by
  refine run_induction (P := Keeping ctx S) ?_ ?_
  · intro r p mapped q _ _ h
    exact absurd h not_runs_failure
  · intro build hb r p mapped q hr hp h
    rcases runs_buildOne h with ⟨rfl, rfl⟩ | ⟨schema, type, hschema, -, htype, hs⟩
    · exact .none hp
    · exact buildSchema_fit hb hr hschema htype hp hs

end Generate

/-! ## Whole forms -/

namespace Form

open Generate

variable {options : FormOptions} {widgets : Registry} {schema data : Option Json} {form : Form}

/-- Every node of the layout fits. -/
theorem layout_fitted (h : compile options widgets schema none data = .ok form) :
    ∀ n ∈ form.layout, Fitted form.setup Whole n := by
  obtain ⟨mapped, s, more, last, hrun, hmore, hlayout, -⟩ :=
    Compose.runs_wholeLayout (compile_whole h)
  have hbuilt := run_fits (S := Whole) (.start rfl)
    (fun _ _ hm => absurd hm List.not_mem_nil) hrun
  have htop : ∀ n ∈ mapped.toList.map (·.modify (Compose.topControl form.setup)) ++ more,
      Fitted form.setup Whole n := by
    intro n hn
    cases List.mem_append.mp hn with
    | inl hn =>
        obtain ⟨m, hm, rfl⟩ := List.mem_map.mp hn
        exact (hbuilt.nodes m hm).modify (topControl_keepsArrays form.setup)
          fun _ b hb => hb.congr (topControl_options form.setup _)
    | inr hn =>
        rcases hmore with rfl | ⟨id, rfl⟩
        · exact absurd hn List.not_mem_nil
        · obtain rfl := List.mem_singleton.mp hn
          exact .leaf rfl
  intro n hn
  rw [hlayout, Node.mapAll_eq_map] at hn
  obtain ⟨first, hfirst, rfl⟩ := List.mem_map.mp hn
  refine (htop first hfirst).map (withTitleMap_keepsArrays _) fun c b hb => hb.congr ?_
  obtain ⟨titleMap, htitles⟩ := Compose.withTitleMap_eq form.setup.options.flatList c
  rw [htitles]

/-- **The number of items.**  An array at any depth of a form has at most as many items as
the bounds allow of a request that it was made for, and these are its options unless it is
of type `$ref`.  And wherever an array with list items is built and the template of its items is
stored in the end, it has the items that its bounds count for its data, if the count is a
word, and a control that adds one exactly if that is allowed and there is room. -/
theorem arrays_meet (h : compile options widgets schema none data = .ok form) :
    (∀ c count, (c, count) ∈ Node.itemCountsAll form.layout → c.isArray = true →
      ∃ r b, Sizes form.setup Whole r b ∧ MadeFor form.setup r c ∧ count ≤ b.maxItems ∧
        (c.isReference = false → c.HasBounds b)) ∧
      ∀ build r array c p q n keyword t, (buildArray form.setup build r array c).Runs p n q →
        listKeyword? array = some keyword →
        q.templates.template? (form.setup.dataKey (Pointer.anyItem r.fullPointer)) = some t →
        FilledUp form.setup r array c n := by
  constructor
  · intro c count hc harray
    obtain ⟨n, hn, hmem⟩ := Node.mem_itemCountsAll.mp hc
    exact layout_fitted h n hn _ hmem harray
  · intro build r array c p q n keyword t hrun hkeyword ht
    exact buildArray_fills hrun hkeyword ht

/-- The arrays in the form of a schema: how many items they have, and may have by their
options. -/
def arrayCounts (schema : Json) : List (Nat × Option Nat) :=
  match compile {} [] (some schema) none none with
  | .ok form => ((Node.itemCountsAll form.layout).filter (·.1.isArray)).map fun x =>
      (x.2, ArrayBounds.limit? (Table.get? x.1.options "maxItems"))
  | .error _ => []

theorem mem_arrayCounts {schema : Json} {count : Nat} {limit : Option Nat}
    (h : (count, limit) ∈ arrayCounts schema) :
    ∃ form c, compile {} [] (some schema) none none = .ok form ∧
      (c, count) ∈ Node.itemCountsAll form.layout ∧ c.isArray = true ∧
      ArrayBounds.limit? (Table.get? c.options "maxItems") = limit := by
  unfold arrayCounts at h
  split at h
  · next form hform =>
      obtain ⟨⟨c, count'⟩, hmem, he⟩ := List.mem_map.mp h
      obtain ⟨hc, harray⟩ := List.mem_filter.mp hmem
      obtain ⟨rfl, hlimit⟩ := Prod.mk.inj he
      exact ⟨form, c, hform, hc, harray, hlimit⟩
  · exact absurd h List.not_mem_nil

/-- The list of a form, built alone: how many items it gets, and whether the template of
its items is stored then. -/
def listRun (form : Form) (array : Json) : Option (Node × Progress) :=
  (buildArray form.setup (run form.setup) (propertyRequest {} "" "list") array {}).run {}

theorem arrays_meet_list :
    ∃ form c n q, compile {} [] (some listSchema) none none = .ok form ∧
      (c, 2) ∈ Node.itemCountsAll form.layout ∧ c.isArray = true ∧
      (∃ r b, Sizes form.setup Whole r b ∧ MadeFor form.setup r c ∧ 2 ≤ b.maxItems ∧
        c.HasBounds b) ∧
      (buildArray form.setup (run form.setup) (propertyRequest {} "" "list")
        (.obj [("type", .str "array"), ("items", .obj [("type", .str "string")])]) {}).Runs {} n q ∧
      n.items.length = 2 ∧
      FilledUp form.setup (propertyRequest {} "" "list")
        (.obj [("type", .str "array"), ("items", .obj [("type", .str "string")])]) {} n := by
  have hcompiled : (compile {} [] (some listSchema) none none).toOption.any (fun form =>
      ((Node.itemCountsAll form.layout).any fun x =>
        x.1.isArray && !x.1.isReference && x.2 == 2) &&
      (listRun form (.obj [("type", .str "array"),
        ("items", .obj [("type", .str "string")])])).any fun x =>
        x.1.items.length == 2 && (x.2.templates.template? (form.setup.dataKey
          (Pointer.anyItem (propertyRequest {} "" "list").fullPointer))).isSome) = true := by
    decide +kernel
  obtain ⟨form, hform, hcompiled⟩ := exists_ok_of_any hcompiled
  simp only [Bool.and_eq_true, List.any_eq_true, Option.any_eq_true, beq_iff_eq,
    Bool.not_eq_true'] at hcompiled
  obtain ⟨⟨⟨c, _⟩, hc, ⟨harray, hplain⟩, rfl⟩, ⟨n, q⟩, hrun, hlength, hstored⟩ := hcompiled
  obtain ⟨t, ht⟩ := Option.isSome_iff_exists.mp hstored
  obtain ⟨hcontrols, hruns⟩ := arrays_meet hform
  obtain ⟨r, b, hsizes, hmade, hcount, hbounds⟩ := hcontrols c 2 hc harray
  exact ⟨form, c, n, q, hform, hc, harray, ⟨r, b, hsizes, hmade, hcount, hbounds hplain⟩, hrun,
    hlength, hruns _ _ _ _ _ _ _ _ _ hrun rfl ht⟩

/-- A list with room for one item, which is a list of at least three and of type `$ref`. -/
def innerListSchema : Json :=
  .obj [("type", .str "array"), ("maxItems", Json.nat 1), ("items", .obj [("type", .str "array"),
    ("x-schema-form", .obj [("type", .str "$ref")]), ("items", .obj [("type", .str "string")]),
    ("minItems", Json.nat 3)])]

/-- The list inside has four items and was told that it may have one. -/
theorem not_arrays_meet :
    ∃ form c, compile {} [] (some innerListSchema) none none = .ok form ∧
      (c, 4) ∈ Node.itemCountsAll form.layout ∧ c.isArray = true ∧
      ArrayBounds.limit? (Table.get? c.options "maxItems") = some 1 := by
  have hmem : (4, some 1) ∈ arrayCounts innerListSchema := by decide +kernel
  exact mem_arrayCounts hmem

end Form

end SchemaForm
