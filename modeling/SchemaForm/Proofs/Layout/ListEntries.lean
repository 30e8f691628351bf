/-
Entries for lists.

An entry with the name of a list is bound to it.  Without entries of its own it is filled
from the schema, with as many items as are counted (`Compose.shown_bareNode`).  With one for
the items it starts from the item that this gives, and is filled up with copies, so that it
has one item at least (`Compose.shown_listNode`).
-/
import SchemaForm.Proofs.Layout.Bound
import SchemaForm.Proofs.Layout.ListItems

namespace SchemaForm

open Build

/-! ## Types of controls -/

namespace Schema

variable {schema : Json} {key : String} {own own' : Members}

/-- The type of a control depends on few of its options. -/
theorem controlType?_congr (hinline : Table.get? own "inline" = Table.get? own' "inline")
    (htitles : Table.has own "titleMap" = Table.has own' "titleMap") :
    controlType? schema own = controlType? schema own' := by
  have hflag : inlineFlag? schema own = inlineFlag? schema own' := by
    rw [inlineFlag?, inlineFlag?, hinline]
  have htype : ∀ name, inlineType name schema own = inlineType name schema own' := by
    intro name
    rw [inlineType, inlineType, hflag]
  have harray : arrayControl schema own = arrayControl schema own' := by
    rw [arrayControl, arrayControl, htype]
  have hselection : isSelection schema own = isSelection schema own' := by
    rw [isSelection, isSelection, htitles]
  rw [controlType?, controlType?]
  simp only [htype, harray, hselection]

end Schema

namespace Compose

open Generate

variable {ctx : Setup} {p q : Progress} {name pointer : String} {array : Json} {c : Control}
  {b : ArrayBounds}

/-! ## Lists that an entry is bound to -/

theorem withCopyTargets_cases (options : Members) :
    withCopyTargets options = options ∨
      ∃ value, withCopyTargets options = Table.insert options "copyValueTo" value := by
  simp only [withCopyTargets]
  split
  · exact .inr ⟨_, rfl⟩
  · exact .inr ⟨_, rfl⟩
  · exact .inl rfl

/-- An entry without a type of its own is described as a list by the schema of one. -/
theorem describe_list (ctx : Setup) (hlist : IsList array) (hc : c.type = "")
    (hown : Schema.controlType? array c.options = Schema.controlType? array []) :
    ∃ d, describe ctx array c = (d, some (entryBounds ctx array c.options)) ∧
      d.dataType = some "array" ∧ d.type.startsWith "checkboxes" = false ∧
      d.HasBounds (entryBounds ctx array c.options) := by
  obtain ⟨hname, type, htype, hboxes⟩ := hlist
  have hbound : boundType ctx array c = type := by
    rw [boundType, if_neg fun hboth => hboth.1 hc, hown, htype]
    rfl
  have hne : (type == "checkboxes") = false := by
    refine beq_false_of_ne ?_
    rintro rfl
    exact absurd hboxes (by decide +kernel)
  have hdata : dataType? array = some "array" := dataType?_of_typeName hname
  refine ⟨_, ?_, ?_, ?_, ArrayBounds.writeOptions_hasBounds _ { c with
    type, options := ctx.optionsFor c.options array, dataType := dataType? array }⟩
  · simp only [describe, hbound, hne, hdata, if_true]
    rfl
  · exact hdata
  · exact hboxes

theorem describedControl_list (ctx : Setup) (pointer : String) (hlist : IsList array)
    (hc : c.type = "")
    (hown : Schema.controlType? array c.options = Schema.controlType? array []) :
    (describe ctx array (boundControl ctx c)).2 = some (entryBounds ctx array c.options) ∧
      (describedControl ctx pointer array c).dataType = some "array" ∧
      (describedControl ctx pointer array c).type.startsWith "checkboxes" = false ∧
      (describedControl ctx pointer array c).HasBounds (entryBounds ctx array c.options) := by
  obtain ⟨d, hd, hdata, hboxes, hbounds⟩ :=
    describe_list ctx (c := boundControl ctx c) hlist hc hown
  have hrequired : (requiredControl ctx pointer d).dataType = some "array" ∧
      (requiredControl ctx pointer d).type.startsWith "checkboxes" = false ∧
      (requiredControl ctx pointer d).HasBounds (entryBounds ctx array c.options) := by
    unfold requiredControl
    split
    · exact ⟨hdata, hboxes, hbounds.setOption (by decide) _⟩
    · exact ⟨hdata, hboxes, hbounds⟩
  obtain ⟨hdata, hboxes, hbounds⟩ := hrequired
  unfold describedControl
  rw [hd]
  refine ⟨rfl, hdata, hboxes, ?_⟩
  rcases withCopyTargets_cases (requiredControl ctx pointer d).options with hsame | ⟨value, hset⟩
  · exact hbounds.congr hsame
  · have hkey : "copyValueTo" ∉ ["maxItems", "minItems", "tupleItems", "listItems"] := by simp
    exact (hbounds.setOption hkey value).congr hset

/-- The parts of the entry of a list. -/
def listParts (own : Members) (name : String) : Description.Parts :=
  { key := some name, options := own, extra := own }

theorem boundTo?_listParts (h : Pointer.IsPlain name) (own : Members) (items : List Node) :
    Description.boundTo? (listParts own name) items = some (Pointer.child "" name) := by
  have hstar : name ≠ "*" := by
    rintro rfl
    exact absurd h (by decide)
  simp only [Description.boundTo?, listParts, Option.none_or, if_neg hstar, h.genericOfPath]

/-- The node of a list's entry before it is bound. -/
def listNode (own : Members) (name : String) (items : List Node) (id : Nat) : Node :=
  entryNode (listParts own name) items (Pointer.item "" 0) id

theorem runs_listEntry {item : Json} {own : Members} (children : Option (List Node))
    (hlist : ctx.HasList name array) (hparts : Description.ofJson? item = some (listParts own name))
    {mapped : Mapped Node} :
    (composeEntry ctx item children (Pointer.item "" 0)).Runs p mapped q ↔
      ∃ made, (bindNode ctx children.isSome
          (listNode own name (children.getD []) (p.lastId + 1))).Runs
            { p with lastId := p.lastId + 1 } made q ∧
        mapped = .one (made.modify withTitle) :=
  composeEntry_bound children _ hparts (boundTo?_listParts hlist.plain own _)
    (Pointer.child_ne_star name)

theorem listNode_dataPointer (hlist : ctx.HasList name array) (own : Members) (items : List Node)
    (id : Nat) : (listNode own name items id).control.dataPointer =
      some (Pointer.child "" name) :=
  boundTo?_listParts hlist.plain own items

theorem boundKey_listNode (hlist : ctx.HasList name array) (own : Members) (items : List Node)
    (id : Nat) : boundKey ctx (listNode own name items id).control = Pointer.child "" name := by
  rw [boundKey, listNode_dataPointer hlist, Option.getD_some, Setup.generic,
    hlist.plain.toGeneric, hlist.place]

theorem describedControl_listNode (pointer : String) (hlist : ctx.HasList name array)
    (own : Members) (items : List Node) (id : Nat) :
    (describedControl ctx pointer array (listNode own name items id).control).dataPointer =
      some (Pointer.child "" name) := by
  rw [describedControl_dataPointer, listNode_dataPointer hlist, Option.getD_some, Setup.generic,
    hlist.plain.toGeneric]

/-- A list that is bound to a bare entry is built from its schema. -/
theorem shown_bareNode (hlist : ctx.HasList name array) {id : Nat} {n : Node}
    (hpointer : leading? ctx p (Pointer.child "" name) = some (Pointer.child "/properties" name))
    (hnone : ∀ name, (name, none) ∉ q.templates)
    (hfiled : ∀ t, q.templates.template? (ctx.itemPlace name) = some t →
      t.node.control.isReference = false)
    (h : (bindNode ctx false (listNode [] name [] id)).Runs p n q) :
    n.control.dataPointer = some (Pointer.child "" name) ∧ n.shown = ctx.listCount name array := by
  rw [← boundKey_listNode hlist [] [] id] at hpointer
  obtain ⟨s, -, -, hbind⟩ := bindNode_described false hpointer hlist.schemaAt?
  have hrun := (hbind n q).mp h
  obtain ⟨-, hdata, hboxes, hbounds⟩ :=
    describedControl_list ctx (Pointer.child "/properties" name)
      (c := (listNode [] name [] id).control) hlist.list rfl rfl
  have hplace := describedControl_listNode (Pointer.child "/properties" name) hlist [] [] id
  generalize describedControl ctx (Pointer.child "/properties" name) array
    (listNode [] name [] id).control = c at hrun hdata hboxes hbounds hplace
  have hexpand : (expandBound ctx (Pointer.child "/properties" name) c).Runs s n q := hrun
  rw [expandBound_array hlist.schemaAt? hdata hboxes] at hexpand
  have hfull : (boundRequest (Pointer.child "/properties" name) c).fullPointer =
      Pointer.child "" name := by
    rw [Request.fullPointer, boundRequest, hplace, Option.getD_some]
    exact String.empty_append
  have hshown := shown_list hlist serves_run rfl hfull hexpand (.refl _) hnone hfiled
  constructor
  · obtain ⟨site, items, filled, s', -, -, rfl, -⟩ := runs_buildArray hexpand
    exact hplace
  · rw [hshown, boundsFor, ArrayBounds.instanceCount_of hlist.tupleLength,
      ArrayBounds.listCount_written hlist.tupleLength (hbounds.congr rfl)]
    rw [existingValues, boundRequest, hplace]
    rfl

/-! ## The item that an entry gives -/

/-- The parts of the entry of an item. -/
def itemParts (name : String) : Description.Parts := { key := some (name ++ "[]") }

/-- The node of an item's entry before it is bound. -/
def itemNode (name pointer : String) (id : Nat) : Node := entryNode (itemParts name) [] pointer id

theorem boundTo?_itemParts (h : Pointer.IsPlain name) :
    Description.boundTo? (itemParts name) [] = some (Pointer.anyItem (Pointer.child "" name)) := by
  have hstar : name ++ "[]" ≠ "*" := by
    intro he
    have hlength := congrArg String.length he
    rw [String.length_append] at hlength
    have hbrackets : "[]".length = 2 := by decide
    have hone : "*".length = 1 := by decide
    omega
  simp only [Description.boundTo?, itemParts, Option.none_or, if_neg hstar,
    h.genericOfPath_items]

theorem anyItem_ne_star (name : String) : Pointer.anyItem (Pointer.child "" name) ≠ "*" := by
  intro he
  have hlist := congrArg String.toList he
  rw [Pointer.anyItem_child_root, Pointer.toList_ofSegments] at hlist
  cases hlist

theorem boundKey_itemNode (hlist : ctx.HasList name array) (id : Nat) :
    boundKey ctx (itemNode name pointer id).control = ctx.itemPlace name := by
  have hplace : (itemNode name pointer id).control.dataPointer =
      some (Pointer.anyItem (Pointer.child "" name)) := boundTo?_itemParts hlist.plain
  rw [boundKey, hplace, Option.getD_some, Setup.generic, hlist.plain.toGeneric_anyItem,
    Setup.itemPlace]

/-- The entry of an item gives one that is no reference. -/
theorem runs_itemEntry (hlist : ctx.HasList name array) (last : Nat) {mapped : Mapped Node}
    (h : (composeEntry ctx (.str (name ++ "[]")) none pointer).Runs { lastId := last } mapped q) :
    ∃ n, mapped = .one n ∧ n.control.isReference = false := by
  have hparts : Description.ofJson? (.str (name ++ "[]")) = some (itemParts name) :=
    Description.ofJson?_key (hlist.plain.isPointer _)
  obtain ⟨made, hmade, rfl⟩ := (composeEntry_bound none pointer hparts
    (boundTo?_itemParts hlist.plain) (anyItem_ne_star name)).mp h
  obtain ⟨place, schema, type, hplace, hschema, htype, hplain⟩ := hlist.item
  have hpointer : leading? ctx { lastId := last + 1 }
      (boundKey ctx (itemNode name pointer (last + 1)).control) = some place := by
    rw [boundKey_itemNode hlist]
    exact hplace
  obtain ⟨s, -, -, hbind⟩ := bindNode_described false hpointer hschema
  have hmadeType : made.control.type = (describedControl ctx place schema
      (itemNode name pointer (last + 1)).control).type :=
    expandBound_type ((hbind made q).mp hmade)
  have hsuggested : boundType ctx schema
      (boundControl ctx (itemNode name pointer (last + 1)).control) = type := by
    have hnone : (boundControl ctx (itemNode name pointer (last + 1)).control).options = [] := rfl
    rw [boundType, if_neg fun hboth => hboth.1 rfl, hnone, htype]
    rfl
  rw [describedControl_type, hsuggested] at hmadeType
  refine ⟨_, rfl, ?_⟩
  have htitled : (made.modify withTitle).control.type = type := by
    rw [Node.control_modify, withTitle]
    split <;> exact hmadeType
  rw [Control.isReference, htitled]
  exact beq_false_of_ne hplain

/-! ## Items of arrays with children -/

variable {g : Grouping} {control : Control} {bounds : ArrayBounds} {existing : Nat}
  {dataPointer : String} {items made : List Node} {n : Node} {t : Template}

theorem typeChild_isReference (container : String) (h : n.control.isReference = false) :
    (typeChild ctx container n).control.isReference = false := by
  rw [typeChild, Node.control_modify]
  by_cases htype : n.control.type = ""
  · have hcontainer : ∀ type, type ≠ "$ref" → (setType ctx type n.control).isReference = false :=
      fun _ hne => beq_false_of_ne hne
    simp only [htype, ne_eq, not_true_eq_false, if_false]
    split
    · split
      · exact hcontainer "tab" (by decide)
      · exact hcontainer "section" (by decide)
    · split
      · exact hcontainer "tab" (by decide)
      · exact hcontainer "section" (by decide)
  · simp only [ne_eq, htype, not_false_eq_true, if_true]
    split <;> exact h

/-- The template of an array's last item is a reference only if that is one. -/
theorem offered?_isReference (hitems : Node.Plain items)
    (ht : offered? ctx g control items = some t) : t.node.control.isReference = false := by
  obtain ⟨last, hlast, rfl⟩ := Option.map_eq_some_iff.mp ht
  have hplain := hitems last (List.mem_of_getLast? hlast)
  unfold templateOf Template.of
  rw [Node.control_map]
  cases last
  split <;> exact hplain

/-- Copies of a template fill items up to the number that is counted. -/
theorem shown_fillFrom {name : String} (hitems : Node.Plain items)
    (hplain : t.node.control.isReference = false)
    (h : (fillFrom ctx g control bounds existing dataPointer name t items).Runs p made q)
    (d : Control) :
    (Node.mk d made).shown = max items.length (bounds.instanceCount .words existing) := by
  simp only [fillFrom, runs_bind] at h
  obtain ⟨more, s, hmore, h⟩ := h
  have hadded : (Node.mk d made).shown =
      (items ++ more).countP fun item => !item.control.isReference := by
    split at h
    · obtain ⟨rfl, rfl⟩ := runs_pure.mp h
      rfl
    · simp only [runs_bind, runs_newId, runs_pure] at h
      obtain ⟨_, _, ⟨rfl, rfl⟩, rfl, rfl⟩ := h
      rw [Node.shown, Node.items, List.countP_append]
      rfl
  rw [hadded, List.countP_append, Node.countP_plain hitems,
    Node.countP_plain (plain_copies hplain hmore), length_copies hmore]
  omega

theorem fillFrom_templates {name : String}
    (h : (fillFrom ctx g control bounds existing dataPointer name t items).Runs p made q) :
    q.templates = p.templates := by
  obtain ⟨count, more, s, hmore, h⟩ := runs_fillFrom h
  obtain ⟨⟨last, rfl⟩, -⟩ := runs_copies hmore
  rcases h with ⟨-, rfl⟩ | ⟨-, label, -, rfl⟩ <;> rfl

/-- An array with items of its own shows these at least, and else as many as are counted, if no
reference is filed as an item. -/
theorem shown_fillArray (hitems : Node.Plain items) (hne : items ≠ [])
    (hfiled : ∀ t, q.templates.template? (fillName ctx g) = some t →
      t.node.control.isReference = false)
    (h : (fillArray ctx g control bounds existing dataPointer items).Runs p made q) (d : Control) :
    (Node.mk d made).shown = max items.length (bounds.instanceCount .words existing) := by
  simp only [fillArray, runs_bind, runs_get] at h
  obtain ⟨u, _, -, _, s, ⟨rfl, rfl⟩, h⟩ := h
  split at h
  · next hnone =>
      -- the last item is offered at least
      have hno := (Option.or_eq_none_iff.mp hnone).2
      rw [Option.map_eq_none_iff, List.getLast?_eq_none_iff] at hno
      exact absurd hno hne
  · next t ht =>
      refine shown_fillFrom hitems ?_ h d
      rcases Option.or_eq_some_iff.mp ht with hstored | ⟨-, hown⟩
      · exact hfiled t (fillFrom_templates h ▸ hstored)
      · have hoffered : offered? ctx g control items = some t := hown
        exact offered?_isReference hitems hoffered

/-- What an array has stored under its name in the end was there before, or is of an item. -/
theorem filed_fillArray (hitems : Node.Plain items)
    (h : (fillArray ctx g control bounds existing dataPointer items).Runs p made q)
    (ht : q.templates.template? (fillName ctx g) = some t) :
    p.templates.template? (fillName ctx g) = some t ∨ t.node.control.isReference = false := by
  obtain ⟨s, u, hstored, h⟩ := runs_fillArray h
  have hkept : q.templates = s.templates := by
    rcases h with ⟨-, rfl⟩ | ⟨t, -, hfill⟩
    · rfl
    · exact fillFrom_templates hfill
  rw [hkept] at ht
  rcases runs_storeOffered hstored with ⟨rfl, -⟩ | ⟨-, own, hown, rfl⟩
  · exact .inl ht
  · have hself : (p.templates.store (fillName ctx g) own).template? (fillName ctx g) = some own :=
      Library.template?_eq_some.mpr ((Table.get?_insert _ _ _ _).trans (if_pos rfl))
    obtain rfl := Option.some.inj (hself.symm.trans ht)
    exact .inr (offered?_isReference hitems hown)

/-- A single child is the item. -/
theorem asItems_single (hplain : n.control.isReference = false)
    (h : (asItems ctx g control bounds [n]).Runs p items q) :
    q = p ∧ Node.Plain items ∧ items.length = 1 := by
  rw [asItems] at h
  obtain ⟨rfl, rfl⟩ := runs_pure.mp h
  refine ⟨rfl, List.forall_mem_singleton.mpr ?_, rfl⟩
  rw [Node.control_modify]
  exact hplain

/-! ## Lists with an item of their own -/

section

variable {own : Members} {item : Node} {id : Nat}

/-- A list that is bound to an entry with an item of its own is filled up from that item. -/
theorem runs_listNode (hlist : ctx.HasList name array)
    (hown : Schema.controlType? array own = Schema.controlType? array [])
    (hitem : item.control.isReference = false)
    (hpointer : leading? ctx p (Pointer.child "" name) = some (Pointer.child "/properties" name))
    (h : (bindNode ctx true (listNode own name [item] id)).Runs p n q) :
    ∃ c g items s filled, c.dataPointer = some (Pointer.child "" name) ∧
      fillName ctx g = ctx.itemPlace name ∧ Node.Plain items ∧ items.length = 1 ∧
      s.templates = p.templates ∧
      (fillArray ctx g c (entryBounds ctx array own) (ctx.dataLength (Pointer.child "" name))
        (c.dataPointer.getD "") items).Runs s filled q ∧ n = .mk c filled := by
  rw [← boundKey_listNode hlist own [item] id] at hpointer
  obtain ⟨s, hsame, -, hbind⟩ := bindNode_described true hpointer hlist.schemaAt?
  have hrun := (hbind n q).mp h
  have hplace := describedControl_listNode (Pointer.child "/properties" name) hlist own [item] id
  obtain ⟨hbounds, -⟩ :=
    describedControl_list ctx (Pointer.child "/properties" name)
      (c := (listNode own name [item] id).control) hlist.list rfl hown
  generalize describedControl ctx (Pointer.child "/properties" name) array
    (listNode own name [item] id).control = c at hrun hplace
  rw [hbounds, listNode_dataPointer hlist] at hrun
  have hexpand : (expandArray ctx (entryBounds ctx array own)
      (ctx.dataLength (Pointer.child "" name)) (typeChildren ctx (.mk c [item]))).Runs s n q := hrun
  obtain ⟨items, s', filled, hitems, hfill, rfl⟩ := runs_expandArray hexpand
  obtain ⟨hkept, hplain, hlength⟩ := asItems_single (typeChild_isReference c.type hitem) hitems
  refine ⟨c, groupingFor ctx c, items, s', filled, hplace, ?_, hplain, hlength, ?_, hfill, rfl⟩
  · rw [fillName, groupingFor, hplace, Option.getD_some]
    exact hlist.itemPlace
  · rw [hkept]
    exact hsame

/-- It shows one item at least, and else as many as are counted. -/
theorem shown_listNode (hlist : ctx.HasList name array)
    (hown : Schema.controlType? array own = Schema.controlType? array [])
    (hitem : item.control.isReference = false)
    (hpointer : leading? ctx p (Pointer.child "" name) = some (Pointer.child "/properties" name))
    (hfiled : ∀ t, q.templates.template? (ctx.itemPlace name) = some t →
      t.node.control.isReference = false)
    (h : (bindNode ctx true (listNode own name [item] id)).Runs p n q) :
    n.control.dataPointer = some (Pointer.child "" name) ∧
      n.shown = max 1 ((entryBounds ctx array own).instanceCount .words
        (ctx.dataLength (Pointer.child "" name))) := by
  obtain ⟨c, g, items, s, filled, hplace, hname, hplain, hlength, -, hfill, rfl⟩ :=
    runs_listNode hlist hown hitem hpointer h
  have hne : items ≠ [] := List.ne_nil_of_length_pos (hlength ▸ Nat.one_pos)
  rw [← hname] at hfiled
  exact ⟨hplace, by rw [shown_fillArray hplain hne hfiled hfill, hlength]⟩

/-- What is stored as its item in the end was there before, or is no reference. -/
theorem filed_listNode (hlist : ctx.HasList name array)
    (hown : Schema.controlType? array own = Schema.controlType? array [])
    (hitem : item.control.isReference = false)
    (hpointer : leading? ctx p (Pointer.child "" name) = some (Pointer.child "/properties" name))
    (h : (bindNode ctx true (listNode own name [item] id)).Runs p n q)
    (ht : q.templates.template? (ctx.itemPlace name) = some t) :
    p.templates.template? (ctx.itemPlace name) = some t ∨
      t.node.control.isReference = false := by
  obtain ⟨c, g, items, s, filled, -, hname, hplain, -, hsame, hfill, -⟩ :=
    runs_listNode hlist hown hitem hpointer h
  rw [← hname] at ht ⊢
  rw [← hsame]
  exact filed_fillArray hplain hfill ht

end

end Compose

end SchemaForm
