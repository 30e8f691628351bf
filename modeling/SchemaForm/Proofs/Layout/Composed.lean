/-
Runs of composing a layout from a description.

The steps of `Compose`, as `Proofs.Layout.Run` has those of `Generate`: one lemma
for each step that takes ids, notes data or stores templates.  Steps that only
change a control are functions and need none.
-/
import SchemaForm.Proofs.Layout.Run
import SchemaForm.Proofs.Pointer.Levels
import SchemaForm.Proofs.Table

namespace SchemaForm

open Build

namespace DataMap

/-- The schema pointer that is recorded for a data location. -/
def pointer? (m : DataMap) (key : String) : Option String :=
  (Table.get? m key).bind DataEntry.schemaPointer

/-- The second data map has the schema pointers of the first. -/
def SamePointers (m m' : DataMap) : Prop := ∀ key, m'.pointer? key = m.pointer? key

variable {m m' m'' : DataMap}

theorem SamePointers.trans (h : m.SamePointers m') (h' : m'.SamePointers m'') :
    m.SamePointers m'' :=
  fun key => (h' key).trans (h key)

theorem pointer?_update (m : DataMap) (key : String) (f : DataEntry → DataEntry)
    (other : String) : (m.update key f).pointer? other =
      if key = other then (f ((Table.get? m key).getD {})).schemaPointer
      else m.pointer? other := by
  rw [pointer?, update, Table.get?_modify]
  split <;> rfl

theorem SamePointers.update (m : DataMap) (key : String) {f : DataEntry → DataEntry}
    (hf : ∀ e, (f e).schemaPointer = e.schemaPointer) : m.SamePointers (m.update key f) := by
  intro other
  rw [pointer?_update]
  split
  · next he =>
      subst he
      rw [hf, pointer?]
      cases Table.get? m key <;> rfl
  · rfl

end DataMap

/-- A text that is no pointer is a key. -/
theorem Description.ofJson?_key {key : String} (h : Pointer.isPointer key = false) :
    Description.ofJson? (.str key) = some { key := some key } := by
  rw [Description.ofJson?, h, if_neg fun hboth => Bool.false_ne_true hboth.2]

namespace Generate

variable {ctx : Setup} {p q : Progress}

/-- The request for what a bound control contains. -/
def boundRequest (schemaPointer : String) (c : Control) : Request :=
  { schemaPointer, layoutPointer := c.layoutPointer, dataPointer := c.dataPointer.getD "" }

/-- A bound control stays as it is or gets the contents that its schema gives. -/
theorem runs_expandBound {schemaPointer : String} {c : Control} {n : Node}
    (h : (expandBound ctx schemaPointer c).Runs p n q) :
    (n = .mk c [] ∧ q = p) ∨
      (∃ schema, ctx.resolved.schemaAt? schemaPointer = some schema ∧
        c.dataType = some "object" ∧ (boundRequest schemaPointer c).isRoot = false ∧ ∃ items,
          (buildProperties (run ctx) (boundRequest schemaPointer c) schema
            c.layoutPointer).Runs p items q ∧ n = .mk c items) ∨
      (∃ schema, ctx.resolved.schemaAt? schemaPointer = some schema ∧
        c.dataType = some "array" ∧
          (buildArray ctx (run ctx) (boundRequest schemaPointer c) schema c).Runs p n q) ∨
      ∃ schema, ctx.resolved.schemaAt? schemaPointer = some schema ∧
        c.dataType = some "$ref" ∧ ∃ made,
          (buildReference ctx (run ctx) (boundRequest schemaPointer c) c).Runs p made q ∧
            n = .mk made [] := by
  simp only [expandBound] at h
  split at h
  · exact .inl (runs_pure.mp h)
  · next schema hschema =>
      split at h
      · next ht =>
        split at h
        · exact .inl (runs_pure.mp h)
        · next hroot =>
            simp only [runs_bind, runs_pure] at h
            obtain ⟨items, s, hi, rfl, rfl⟩ := h
            refine .inr (.inl ⟨schema, hschema, ht, ?_, items, hi, rfl⟩)
            have hne : (c.dataPointer.getD "" == "") = false := beq_false_of_ne hroot
            simp only [Request.isRoot, boundRequest, hne, Bool.false_and]
      · next ht =>
          split at h
          · exact .inl (runs_pure.mp h)
          · exact .inr (.inr (.inl ⟨schema, hschema, ht, h⟩))
      · next ht =>
          simp only [runs_bind, runs_pure] at h
          obtain ⟨made, s, hm, rfl, rfl⟩ := h
          exact .inr (.inr (.inr ⟨schema, hschema, ht, made, hm, rfl⟩))
      · exact .inl (runs_pure.mp h)

end Generate

namespace Compose

variable {ctx : Setup} {p q : Progress}

/-! ## Items of arrays -/

/-- A child of an array that stays by itself. -/
def keptItem (removable : Bool) (c : Control) : Control :=
  { c.setOption "removable" (.bool removable) with arrayItem := true, itemKind := some .list }

theorem runs_regroup {g : Grouping} {removable : Bool} {bounds : ArrayBounds}
    {children made : List Node}
    (h : (regroup ctx g removable bounds children).Runs p made q) :
    ∃ kept, kept = (children.filter (!g.holds ·)).map (·.modify (keptItem removable)) ∧
      ((children.filter g.holds = [] ∧ made = kept ∧ q = p) ∨
        ∃ kind, made = kept ++
            [gathered ctx g removable kind (p.lastId + 1) (children.filter g.holds)] ∧
          q = { p with lastId := p.lastId + 1 }) := by
  simp only [regroup, List.partition_eq_filter_filter] at h
  refine ⟨_, rfl, ?_⟩
  split at h
  · next hf => exact .inl ⟨List.isEmpty_iff.mp hf, runs_pure.mp h⟩
  · simp only [runs_bind, runs_newId, runs_pure] at h
    obtain ⟨_, _, ⟨rfl, rfl⟩, rfl, rfl⟩ := h
    exact .inr ⟨_, rfl, rfl⟩

theorem runs_asItems {g : Grouping} {array : Control} {bounds : ArrayBounds}
    {children made : List Node} (h : (asItems ctx g array bounds children).Runs p made q) :
    (∃ only orderable, children = [only] ∧ q = p ∧
        made = [only.modify (markOnlyItem (ctx.generic g.key) orderable bounds)]) ∨
      (regroup ctx g (array.flag "removable" true) bounds children).Runs p made q := by
  simp only [asItems] at h
  split at h
  · next only =>
      obtain ⟨rfl, rfl⟩ := runs_pure.mp h
      exact .inl ⟨only, _, rfl, rfl, rfl⟩
  · exact .inr h

theorem runs_storeOffered {name : String} {addable : Bool} {offered : Option Template} {u : Unit}
    (h : (storeOffered name addable offered).Runs p u q) :
    (q = p ∧ (addable = true → p.templates.knows name = true ∨ offered = none)) ∨
      (p.templates.knows name = false ∧ ∃ t, offered = some t ∧
        q = { p with templates := p.templates.store name t }) := by
  simp only [storeOffered, runs_bind, runs_get] at h
  obtain ⟨_, _, ⟨rfl, rfl⟩, h⟩ := h
  split at h
  · next hk =>
      cases offered with
      | none => exact .inl ⟨(runs_pure.mp h).2, fun _ => .inr rfl⟩
      | some t =>
          simp only [Bool.and_eq_true, Bool.not_eq_true'] at hk
          exact .inr ⟨hk.2, t, rfl, runs_onTemplates.mp h⟩
  · next hk =>
      refine .inl ⟨(runs_pure.mp h).2, fun haddable => .inl ?_⟩
      simpa only [haddable, Bool.true_and, Bool.not_eq_true', Bool.not_eq_false] using hk

theorem runs_fillFrom {g : Grouping} {array : Control} {bounds : ArrayBounds} {existing : Nat}
    {dataPointer name : String} {t : Template} {items made : List Node}
    (h : (fillFrom ctx g array bounds existing dataPointer name t items).Runs p made q) :
    ∃ count more s, (copies t ⟨g.item, g.layout⟩ count).Runs p more s ∧
      ((made = items ++ more ∧ q = s) ∨
        (array.flag "addable" true = true ∧ ∃ label,
          made = items ++ more ++ [Generate.addControl ctx array name (name != g.item)
            label bounds (s.lastId + 1)] ∧
          q = { s with lastId := s.lastId + 1 })) := by
  simp only [fillFrom, runs_bind] at h
  obtain ⟨more, s, hm, h⟩ := h
  refine ⟨_, more, s, hm, ?_⟩
  split at h
  · exact .inl (runs_pure.mp h)
  · next hcond =>
      simp only [runs_bind, runs_newId, runs_pure] at h
      obtain ⟨_, _, ⟨rfl, rfl⟩, rfl, rfl⟩ := h
      simp only [Bool.or_eq_true, Bool.not_eq_true', not_or, Bool.not_eq_false] at hcond
      exact .inr ⟨hcond.1, _, rfl, rfl⟩

/-- The name under which an array with children stores its item template. -/
def fillName (ctx : Setup) (g : Grouping) : String := ctx.dataKey (ctx.generic g.key)

/-- The template that an array with these items has to offer. -/
def offered? (ctx : Setup) (g : Grouping) (array : Control) (items : List Node) :
    Option Template :=
  items.getLast?.map
    (templateOf g.item (array.layoutPointer ++ "/items") (fillName ctx g != g.item))

theorem runs_fillArray {g : Grouping} {array : Control} {bounds : ArrayBounds} {existing : Nat}
    {dataPointer : String} {items made : List Node}
    (h : (fillArray ctx g array bounds existing dataPointer items).Runs p made q) :
    ∃ s u, (storeOffered (fillName ctx g) (array.flag "addable" true)
          (offered? ctx g array items)).Runs p u s ∧
      ((made = items ∧ q = s) ∨
        ∃ t, (s.templates.template? (fillName ctx g) = some t ∨
            offered? ctx g array items = some t) ∧
          (fillFrom ctx g array bounds existing dataPointer (fillName ctx g) t items).Runs
            s made q) := by
  simp only [fillArray, runs_bind, runs_get] at h
  obtain ⟨u, s, hs, _, _, ⟨rfl, rfl⟩, h⟩ := h
  refine ⟨_, u, hs, ?_⟩
  split at h
  · exact .inl (runs_pure.mp h)
  · next t ht => exact .inr ⟨t, (Option.or_eq_some_iff.mp ht).imp_right And.right, h⟩

/-- The item of an array with children, and where its loose fields are. -/
def groupingFor (ctx : Setup) (array : Control) : Grouping :=
  { key := ctx.dataKey (Pointer.anyItem (array.dataPointer.getD ""))
    item := Pointer.anyItem (array.dataPointer.getD "")
    array := array.layoutPointer
    layout := Pointer.anyItem (array.layoutPointer ++ "/items") }

theorem runs_expandArray {bounds : ArrayBounds} {existing : Nat} {n made : Node}
    (h : (expandArray ctx bounds existing n).Runs p made q) :
    ∃ items s filled, (asItems ctx (groupingFor ctx n.control) n.control bounds n.items).Runs
        { p with
          dataMap := p.dataMap.update (groupingFor ctx n.control).key fun e =>
            { e with inputType := some "section" } } items s ∧
      (fillArray ctx (groupingFor ctx n.control) n.control bounds existing
        (n.control.dataPointer.getD "") items).Runs s filled q ∧
      made = .mk n.control filled := by
  simp only [expandArray, runs_bind, runs_note, runs_pure] at h
  obtain ⟨_, _, rfl, items, s, hi, filled, s', hf, rfl, rfl⟩ := h
  exact ⟨items, s, filled, hi, hf, rfl⟩

/-! ## Bound entries -/

/-- A schema pointer is the recorded one, or is found in the schema and recorded. -/
theorem runs_schemaPointerFor {key : String} {found : Option String}
    (h : (schemaPointerFor ctx key).Runs p found q) :
    (p.dataMap.pointer? key = found ∧ q = p) ∨
      (Schema.pointerOfData? ctx.schema key = found ∧
        q = { p with dataMap := p.dataMap.update key ({ · with schemaPointer := found }) }) := by
  simp only [schemaPointerFor, runs_bind, runs_get] at h
  obtain ⟨_, _, ⟨rfl, rfl⟩, h⟩ := h
  split at h
  · next hrecorded =>
      obtain ⟨rfl, rfl⟩ := runs_pure.mp h
      exact .inl ⟨hrecorded, rfl⟩
  · simp only [runs_bind, runs_note, runs_pure] at h
    obtain ⟨_, _, rfl, rfl, rfl⟩ := h
    exact .inr ⟨rfl, rfl⟩

/-- What a schema says about a control is noted in the data map, and in the mark
that something is required. -/
theorem runs_bindToSchema {key schemaPointer : String} {schema : Json} {c : Control}
    {made : Control × Option ArrayBounds}
    (h : (bindToSchema ctx key schemaPointer schema c).Runs p made q) :
    ∃ m required, q = { p with dataMap := m, fieldsRequired := required } ∧
      p.dataMap.SamePointers m ∧ made.2 = (describe ctx schema c).2 ∧
      (made.1 = (describe ctx schema c).1 ∨
        made.1 = (describe ctx schema c).1.setOption "required" (.bool true)) := by
  simp only [bindToSchema, runs_bind, runs_note] at h
  obtain ⟨_, s, rfl, h⟩ := h
  by_cases hr : Schema.isRequired ctx.schema schemaPointer = true
  · simp only [hr, if_true, runs_bind, runs_noteRequired, runs_pure] at h
    obtain ⟨_, _, rfl, rfl, rfl⟩ := h
    refine ⟨_, _, rfl, .update _ _ fun e => ?_, rfl, .inr rfl⟩
    cases (describe ctx schema c).2 <;> rfl
  · simp only [hr] at h
    obtain ⟨rfl, rfl⟩ := runs_pure.mp h
    refine ⟨_, _, rfl, .update _ _ fun e => ?_, rfl, .inl rfl⟩
    cases (describe ctx schema c).2 <;> rfl

/-- What describing a control leaves as it is. -/
structure Describes (c c' : Control) : Prop where
  id : c'.id = c.id
  dataPointer : c'.dataPointer = c.dataPointer
  layoutPointer : c'.layoutPointer = c.layoutPointer
  reference : c'.reference = c.reference

theorem describe_describes (schema : Json) (c : Control) :
    Describes c (describe ctx schema c).1 := by
  simp only [describe]
  split
  · exact ⟨rfl, rfl, rfl, rfl⟩
  · split <;> exact ⟨rfl, rfl, rfl, rfl⟩

/-- Only arrays have bounds. -/
theorem describe_bounds {schema : Json} {c : Control} {b : ArrayBounds}
    (h : (describe ctx schema c).2 = some b) : Generate.dataType? schema = some "array" := by
  simp only [describe] at h
  split at h
  · cases h
  · split at h
    · next ht => exact ht
    · cases h

theorem describe_dataType (schema : Json) (c : Control) :
    (describe ctx schema c).1.dataType = Generate.dataType? schema := by
  simp only [describe]
  split
  · rfl
  · split <;> rfl

/-- The control has the type of data that the schema at the pointer describes. -/
def Typed (ctx : Setup) (schemaPointer : Option String) (c : Control) : Prop :=
  ∀ pointer schema, schemaPointer = some pointer → ctx.resolved.schemaAt? pointer = some schema →
    c.dataType = Generate.dataType? schema

/-- The schema at the pointer is that of an array. -/
def IsArray (ctx : Setup) (schemaPointer : Option String) : Prop :=
  ∃ pointer schema, schemaPointer = some pointer ∧
    ctx.resolved.schemaAt? pointer = some schema ∧ Generate.dataType? schema = some "array"

theorem Typed.array {found : Option String} {c : Control} (h : Typed ctx found c)
    (harray : IsArray ctx found) : c.dataType = some "array" := by
  obtain ⟨pointer, schema, hfound, hschema, ht⟩ := harray
  exact (h pointer schema hfound hschema).trans ht

/-- Describing a control leaves its place, the counter, the templates and the recorded schema
pointers alone. -/
theorem runs_describeBound {key : String} {schemaPointer : Option String} {c : Control}
    {made : Control × Option ArrayBounds}
    (h : (describeBound ctx key schemaPointer c).Runs p made q) :
    Describes c made.1 ∧ (∀ b, made.2 = some b → IsArray ctx schemaPointer) ∧
      Typed ctx schemaPointer made.1 ∧ q.lastId = p.lastId ∧ q.templates = p.templates ∧
      p.dataMap.SamePointers q.dataMap := by
  simp only [describeBound] at h
  split at h
  · next pointer schema hschema =>
      have htyped : Typed ctx (some pointer) (describe ctx schema c).1 := by
        intro other again hother hagain
        obtain rfl := Option.some.inj hother
        obtain rfl := Option.some.inj (hagain.symm.trans hschema)
        exact describe_dataType again c
      obtain ⟨m, required, rfl, hsame, hb, hm⟩ := runs_bindToSchema h
      have hd : Describes c (describe ctx schema c).1 := describe_describes schema c
      have harray : ∀ b, made.2 = some b → IsArray ctx (some pointer) :=
        fun b h => ⟨pointer, schema, rfl, hschema, describe_bounds (hb ▸ h)⟩
      rcases hm with hm | hm
      · rw [hm]
        exact ⟨hd, harray, htyped, rfl, rfl, hsame⟩
      · rw [hm]
        exact ⟨⟨hd.id, hd.dataPointer, hd.layoutPointer, hd.reference⟩, harray, htyped, rfl, rfl,
          hsame⟩
  · next hnone =>
      obtain ⟨rfl, rfl⟩ := runs_pure.mp h
      refine ⟨⟨rfl, rfl, rfl, rfl⟩, fun _ h => absurd h (Option.some_ne_none _).symm, ?_, rfl, rfl,
        fun _ => rfl⟩
      rintro pointer schema rfl hschema
      exact absurd hschema (hnone pointer schema rfl)

theorem runs_fillBound {isContainer : Bool} {schemaPointer : Option String}
    {bounds : Option ArrayBounds} {existing : Nat} {n made : Node}
    (h : (fillBound ctx isContainer schemaPointer bounds existing n).Runs p made q) :
    (made = n ∧ q = p) ∨
      (isContainer = true ∧ ∃ b, bounds = some b ∧
        (expandArray ctx b existing n).Runs p made q) ∨
      (isContainer = false ∧ ∃ pointer, schemaPointer = some pointer ∧
        (Generate.expandBound ctx pointer n.control).Runs p made q) := by
  simp only [fillBound] at h
  cases isContainer with
  | true =>
      rw [if_pos rfl] at h
      split at h
      · next b _ _ _ => exact .inr (.inl ⟨rfl, b, rfl, h⟩)
      · exact .inl (runs_pure.mp h)
  | false =>
      rw [if_neg Bool.false_ne_true] at h
      split at h
      · next pointer => exact .inr (.inr ⟨rfl, pointer, rfl, h⟩)
      · exact .inl (runs_pure.mp h)

/-- A bound node is described and its children are typed before its contents are
laid out; on the way its schema pointer is looked up. -/
theorem runs_bindNode {isContainer : Bool} {n made : Node}
    (h : (bindNode ctx isContainer n).Runs p made q) :
    ∃ c found bounds existing s₁ s,
      Describes { n.control with
        dataPointer := some (ctx.generic (n.control.dataPointer.getD "")) } c ∧
      (∀ b, bounds = some b → IsArray ctx found) ∧ Typed ctx found c ∧
      s.lastId = p.lastId ∧ s.templates = p.templates ∧
      (schemaPointerFor ctx (ctx.dataKey (ctx.generic (n.control.dataPointer.getD "")))).Runs
        p found s₁ ∧
      s₁.dataMap.SamePointers s.dataMap ∧
      (fillBound ctx isContainer found bounds existing
        (typeChildren ctx (.mk c n.items))).Runs s made q := by
  simp only [bindNode, runs_bind, runs_note] at h
  obtain ⟨found, s₁, h₁, _, s₂, rfl, ⟨c, bounds⟩, s₃, h₃, _, s₄, rfl, h⟩ := h
  obtain ⟨hd, hb, htyped, hl, ht, hsame⟩ := runs_describeBound h₃
  have hfound : s₁.lastId = p.lastId ∧ s₁.templates = p.templates := by
    rcases runs_schemaPointerFor h₁ with ⟨-, rfl⟩ | ⟨-, rfl⟩ <;> exact ⟨rfl, rfl⟩
  refine ⟨_, found, bounds, _, s₁, _, ?_, ?_, ?_, ?_, ?_, h₁, ?_, h⟩
  · exact ⟨hd.id, hd.dataPointer, hd.layoutPointer, hd.reference⟩
  · exact hb
  · exact htyped
  · exact hl.trans hfound.1
  · exact ht.trans hfound.2
  · refine DataMap.SamePointers.trans ?_ (hsame.trans ?_)
    · exact .update _ _ fun _ => rfl
    · exact .update _ _ fun _ => rfl

/-- A node that is bound to nothing stays as it is, or its control is described and its
children are typed. -/
theorem finishFree_cases (isContainer : Bool) (n : Node) :
    finishFree ctx isContainer n = n ∨ ∃ c, Describes n.control c ∧
      finishFree ctx isContainer n = typeChildren ctx (.mk c n.items) := by
  by_cases hc : n.control.type ≠ "" ∨ isContainer = true
  · refine .inr ⟨_, ?_, if_pos hc⟩
    dsimp only
    split <;> exact ⟨rfl, rfl, rfl, rfl⟩
  · exact .inl (if_neg hc)

/-! ## Whole layouts -/

/-- The node of an entry before it is bound. -/
def entryNode (parts : Description.Parts) (items : List Node) (pointer : String) (id : Nat) :
    Node :=
  .mk {
    id := some id
    type := parts.type
    name := parts.name
    dataPointer := Description.boundTo? parts items
    layoutPointer := Pointer.genericLayout pointer
    options := parts.options } items

/-- An entry takes an id; then it is dropped, stands for everything in the schema,
is bound, or stands for itself. -/
theorem runs_composeEntry {item : Json} {children : Option (List Node)} {pointer : String}
    {mapped : Mapped Node} (h : (composeEntry ctx item children pointer).Runs p mapped q) :
    ∃ s, s = { p with lastId := p.lastId + 1 } ∧
      ((Description.ofJson? item = none ∧ mapped = .drop ∧ q = s) ∨
        ∃ parts n, Description.ofJson? item = some parts ∧
          n = entryNode parts (children.getD []) pointer (p.lastId + 1) ∧
          ((n.control.dataPointer = some "*" ∧
              (Generate.wholeSchema ctx ((Pointer.listOfItem? n.control.layoutPointer).getD
                n.control.layoutPointer)).Runs s mapped q) ∨
            (∃ a made, n.control.dataPointer = some a ∧
              (bindNode ctx children.isSome n).Runs s made q ∧
              mapped = .one (made.modify Generate.withTitle)) ∨
            (mapped = .one ((finishFree ctx children.isSome n).modify Generate.withTitle) ∧
              q = s))) := by
  simp only [composeEntry, runs_bind, runs_newId] at h
  obtain ⟨_, _, ⟨rfl, rfl⟩, h⟩ := h
  refine ⟨_, rfl, ?_⟩
  split at h
  · next hnone => exact .inl ⟨hnone, runs_pure.mp h⟩
  · next parts hp =>
      refine .inr ⟨parts, _, hp, rfl, ?_⟩
      split at h
      · next hd => exact .inl ⟨hd, h⟩
      · next a _ hd =>
          simp only [runs_bind, runs_pure] at h
          obtain ⟨made, s, hb, rfl, rfl⟩ := h
          exact .inr (.inl ⟨_, made, hd, hb, rfl⟩)
      · exact .inr (.inr (runs_pure.mp h))

theorem runs_withSubmit {nodes made : List Node} (h : (withSubmit ctx nodes).Runs p made q) :
    (made = nodes ∧ q = p) ∨
      (made = nodes ++ [submitControl ctx (p.lastId + 1)] ∧
        q = { p with lastId := p.lastId + 1 }) := by
  simp only [withSubmit] at h
  split at h
  · simp only [runs_bind, runs_newId, runs_pure] at h
    obtain ⟨_, _, ⟨rfl, rfl⟩, rfl, rfl⟩ := h
    exact .inr ⟨rfl, rfl⟩
  · exact .inl (runs_pure.mp h)

/-- What is still made of a control at the top of a layout. -/
def topControl (ctx : Setup) (c : Control) : Control :=
  if c.type = "" then setType ctx "section" c else c

theorem runs_layout {entries : List Json} {made : List Node}
    (h : (layout ctx entries).Runs p made q) :
    ∃ nodes s nodes' s',
      (Entry.mapAll (step ctx) "" 0 (Entry.ofItems entries)).Runs p nodes s ∧
      (withSubmit ctx (nodes.map (·.modify (topControl ctx)))).Runs s nodes' s' ∧
      made = Node.mapAll (withTitleMap ctx.options.flatList) nodes' ∧
      q = { s' with
        templates := s'.templates.mapControls (withTitleMap ctx.options.flatList) } := by
  simp only [layout, runs_bind, runs_onTemplates, runs_pure] at h
  obtain ⟨nodes, s, hn, nodes', s', hs, _, _, rfl, rfl, rfl⟩ := h
  exact ⟨nodes, s, nodes', s', hn, hs, rfl, rfl⟩

/-- An entry that stands for everything in the schema, at the top. -/
theorem runs_starEntry {item : Json} {parts : Description.Parts} {index : Nat}
    {mapped : Mapped Node} (hparts : Description.ofJson? item = some parts)
    (hstar : Description.boundTo? parts [] = some "*")
    (h : (composeEntry ctx item none (Pointer.item "" index)).Runs p mapped q) :
    (Generate.run ctx {}).Runs { p with lastId := p.lastId + 1 } mapped q := by
  simp only [composeEntry, runs_bind, runs_newId, hparts, Option.getD_none] at h
  obtain ⟨_, _, ⟨rfl, rfl⟩, h⟩ := h
  have htop : (Pointer.listOfItem? (Pointer.genericLayout (Pointer.item "" index))).getD
      (Pointer.genericLayout (Pointer.item "" index)) = "" := by
    rw [Pointer.genericLayout_item, Pointer.listOfItem?_anyItem]
    decide
  have hwhole : (Generate.wholeSchema ctx ((Pointer.listOfItem? (Pointer.genericLayout
      (Pointer.item "" index))).getD (Pointer.genericLayout (Pointer.item "" index)))).Runs
        { p with lastId := p.lastId + 1 } mapped q := by
    simpa only [Node.control, hstar] using h
  rw [htop] at hwhole
  exact hwhole

/-- The layout of a whole schema is what is generated for the form as a whole, and
possibly a submit control. -/
theorem runs_wholeLayout {nodes : List Node} (h : (layout ctx [.str "*"]).Runs p nodes q) :
    ∃ mapped s more last, (Generate.run ctx {}).Runs { p with lastId := p.lastId + 1 } mapped s ∧
      (more = [] ∨ ∃ id, more = [submitControl ctx id]) ∧
      nodes = Node.mapAll (withTitleMap ctx.options.flatList)
        (mapped.toList.map (·.modify (topControl ctx)) ++ more) ∧
      q = { s with
        lastId := last
        templates := s.templates.mapControls (withTitleMap ctx.options.flatList) } := by
  obtain ⟨built, s, submitted, s', hbuilt, hsubmit, rfl, rfl⟩ := runs_layout h
  have hentries : Entry.ofItems [.str "*"] = [.leaf (.str "*")] := rfl
  simp only [hentries, Entry.mapAll, Entry.map, runs_bind, runs_pure] at hbuilt
  obtain ⟨mapped, s₁, hentry, _, _, ⟨rfl, rfl⟩, rfl, rfl⟩ := hbuilt
  rw [List.append_nil] at hsubmit
  have hrun := runs_starEntry (Description.ofJson?_key (by decide)) rfl hentry
  rcases runs_withSubmit hsubmit with ⟨rfl, rfl⟩ | ⟨rfl, rfl⟩
  · exact ⟨mapped, _, [], _, hrun, .inl rfl, by rw [List.append_nil], rfl⟩
  · exact ⟨mapped, _, _, _, hrun, .inr ⟨_, rfl⟩, rfl, rfl⟩

end Compose

namespace Form

/-- What passes a test has not failed. -/
theorem exists_ok_of_any {ε α : Type} {e : Except ε α} {p : α → Bool}
    (h : e.toOption.any p = true) : ∃ a, e = .ok a ∧ p a = true := by
  cases e with
  | error _ => cases h
  | ok a => exact ⟨a, rfl, h⟩

/-- What a compiled form was built from. -/
theorem compile_ok {options : FormOptions} {widgets : Registry} {schema layout data : Option Json}
    {form : Form} (h : compile options widgets schema layout data = .ok form) :
    ∃ document entries, schemaOf schema data = .ok document ∧ entriesOf layout = .ok entries ∧
      setupOf? options widgets document data = some form.setup ∧
      (Compose.layout form.setup entries).Runs {} form.layout form.progress := by
  simp only [compile, bind, Except.bind] at h
  split at h
  · exact absurd h (by simp)
  · next document hd =>
      split at h
      · exact absurd h (by simp)
      · next entries he =>
          refine ⟨document, entries, hd, he, ?_⟩
          split at h
          · next built hb =>
              obtain ⟨setup, hs, hb⟩ := Option.bind_eq_some_iff.mp hb
              simp only [build?, Option.map_eq_some_iff] at hb
              obtain ⟨⟨nodes, progress⟩, hr, rfl⟩ := hb
              cases h
              exact ⟨hs, hr⟩
          · exact absurd h (by simp [throw, throwThe, MonadExceptOf.throw])

/-- Without a description the whole schema is laid out. -/
theorem compile_whole {options : FormOptions} {widgets : Registry} {schema data : Option Json}
    {form : Form} (h : compile options widgets schema none data = .ok form) :
    (Compose.layout form.setup [.str "*"]).Runs {} form.layout form.progress := by
  obtain ⟨document, entries, -, hentries, -, hrun⟩ := compile_ok h
  obtain rfl : [Json.str "*"] = entries := Except.ok.inj hentries
  exact hrun

end Form

end SchemaForm
