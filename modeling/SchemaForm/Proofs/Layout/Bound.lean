/-
Entries that are bound to data with a schema.

What comes before the contents of a bound entry always ends: the schema pointer is looked up,
and the control is described by the schema.  So a run of binding is one of laying the contents
out, from a progress with the same templates (`bindNode_described`).
-/
import SchemaForm.Proofs.Layout.Offers
import SchemaForm.Proofs.Layout.Standing

namespace SchemaForm

open Build

namespace Build

variable {α β : Type} {p q s : Progress} {m : Build α} {f : α → Build β} {a : α} {b : β}

/-- What follows a computation that ends runs from where that ends. -/
theorem runs_bind_of (h : m.Runs p a s) : (m >>= f).Runs p b q ↔ (f a).Runs s b q := by
  constructor
  · intro hb
    obtain ⟨a', s', h', hb⟩ := runs_bind.mp hb
    obtain ⟨rfl, rfl⟩ := Prod.mk.inj (Option.some.inj (h.symm.trans h'))
    exact hb
  · exact fun hb => runs_bind.mpr ⟨a, s, h, hb⟩

/-- The computation always gives the value, and notes nothing but what the form knows about data
besides its schemas. -/
def Remarks (m : Build α) (a : α) : Prop :=
  ∀ p, ∃ s, m.Runs p a s ∧ s.templates = p.templates ∧ p.dataMap.SamePointers s.dataMap

namespace Remarks

theorem pure (a : α) : Remarks (pure a : Build α) a :=
  fun p => ⟨p, runs_pure.mpr ⟨rfl, rfl⟩, rfl, fun _ => rfl⟩

theorem bind (hm : Remarks m a) (hf : Remarks (f a) b) : Remarks (m >>= f) b := by
  intro p
  obtain ⟨s, hs, ht, hsame⟩ := hm p
  obtain ⟨q, hq, ht', hsame'⟩ := hf s
  exact ⟨q, (runs_bind_of hs).mpr hq, ht'.trans ht, hsame.trans hsame'⟩

theorem note (key : String) {f : DataEntry → DataEntry}
    (hf : ∀ e, (f e).schemaPointer = e.schemaPointer) : Remarks (note key f) () :=
  fun _ => ⟨_, runs_note.mpr rfl, rfl, .update _ _ hf⟩

theorem noteRequired : Remarks noteRequired () :=
  fun _ => ⟨_, runs_noteRequired.mpr rfl, rfl, fun _ => rfl⟩

end Remarks

end Build

namespace Compose

variable {ctx : Setup} {p q : Progress} {key pointer : String} {schema : Json} {c : Control}

/-! ## Bound entries whose schema is found -/

/-- The schema pointer of a data location is the one that is recorded for it, or else the one
that is found in the schema. -/
def leading? (ctx : Setup) (p : Progress) (key : String) : Option String :=
  (p.dataMap.pointer? key).or (Schema.pointerOfData? ctx.schema key)

theorem schemaPointerFor_runs (ctx : Setup) (p : Progress) (key : String) :
    ∃ s, (schemaPointerFor ctx key).Runs p (leading? ctx p key) s ∧ s.templates = p.templates ∧
      s.dataMap.pointer? key = leading? ctx p key := by
  unfold leading? schemaPointerFor
  cases hrecorded : p.dataMap.pointer? key with
  | some pointer =>
      refine ⟨p, ?_, rfl, hrecorded⟩
      rw [runs_bind_of (runs_get.mpr ⟨rfl, rfl⟩)]
      rw [DataMap.pointer?] at hrecorded
      rw [hrecorded]
      exact runs_pure.mpr ⟨rfl, rfl⟩
  | none =>
      refine ⟨{ p with dataMap := p.dataMap.update key fun e =>
        { e with schemaPointer := Schema.pointerOfData? ctx.schema key } }, ?_, rfl, ?_⟩
      · rw [runs_bind_of (runs_get.mpr ⟨rfl, rfl⟩)]
        rw [DataMap.pointer?] at hrecorded
        rw [hrecorded]
        exact runs_bind.mpr ⟨(), _, runs_note.mpr rfl, runs_pure.mpr ⟨rfl, rfl⟩⟩
      · rw [DataMap.pointer?_update, if_pos rfl]
        rfl

/-- The control of a bound node when its schema is looked up. -/
def boundControl (ctx : Setup) (c : Control) : Control :=
  { c with
    dataPointer := some (ctx.generic (c.dataPointer.getD ""))
    name := c.name.or ((Pointer.last? (ctx.generic (c.dataPointer.getD ""))).filter
      (· ≠ Pointer.wildcard)) }

/-- The key of a bound node in the data map. -/
def boundKey (ctx : Setup) (c : Control) : String :=
  ctx.dataKey (ctx.generic (c.dataPointer.getD ""))

/-- A control that is required where its place is. -/
def requiredControl (ctx : Setup) (pointer : String) (c : Control) : Control :=
  if Schema.isRequired ctx.schema pointer then c.setOption "required" (.bool true) else c

theorem bindToSchema_remarks (ctx : Setup) (key pointer : String) (schema : Json) (c : Control) :
    (bindToSchema ctx key pointer schema c).Remarks
      (requiredControl ctx pointer (describe ctx schema c).1, (describe ctx schema c).2) := by
  unfold bindToSchema requiredControl
  obtain ⟨d, bounds⟩ := describe ctx schema c
  refine .bind (.note _ fun e => ?_) ?_
  · cases bounds <;> rfl
  · dsimp only
    split
    · exact .bind .noteRequired (.pure _)
    · exact .pure _

/-- The control of a bound node as its schema at the pointer describes it. -/
def describedControl (ctx : Setup) (pointer : String) (schema : Json) (c : Control) : Control :=
  let d := requiredControl ctx pointer (describe ctx schema (boundControl ctx c)).1
  { d with options := withCopyTargets d.options, widget := ctx.widget? d.type }

/-- Binding a node to data with a schema describes it, and then lays out what it contains. -/
theorem bindNode_described (isContainer : Bool) {n : Node}
    (hpointer : leading? ctx p (boundKey ctx n.control) = some pointer)
    (hschema : ctx.resolved.schemaAt? pointer = some schema) :
    ∃ s, s.templates = p.templates ∧
      s.dataMap.pointer? (boundKey ctx n.control) = some pointer ∧ ∀ made q,
        (bindNode ctx isContainer n).Runs p made q ↔
          (fillBound ctx isContainer (some pointer)
            (describe ctx schema (boundControl ctx n.control)).2
            (ctx.dataLength (n.control.dataPointer.getD ""))
            (typeChildren ctx (.mk (describedControl ctx pointer schema n.control)
              n.items))).Runs s made q := by
  obtain ⟨s₁, h₁, ht₁, hp₁⟩ := schemaPointerFor_runs ctx p (boundKey ctx n.control)
  rw [hpointer] at h₁ hp₁
  have hnote : (note (boundKey ctx n.control) ({ · with
      disabled := (boundControl ctx n.control).flag "disabled" false })).Remarks () :=
    .note _ fun _ => rfl
  have hbound : (describeBound ctx (boundKey ctx n.control) (some pointer)
      (boundControl ctx n.control)).Remarks
        (requiredControl ctx pointer (describe ctx schema (boundControl ctx n.control)).1,
          (describe ctx schema (boundControl ctx n.control)).2) := by
    simp only [describeBound, Option.bind_some, hschema]
    exact bindToSchema_remarks ctx (boundKey ctx n.control) pointer schema _
  have htype : (note (boundKey ctx n.control) ({ · with
      inputType := some (describedControl ctx pointer schema n.control).type })).Remarks () :=
    .note _ fun _ => rfl
  obtain ⟨s₂, h₂, ht₂, hp₂⟩ := hnote s₁
  obtain ⟨s₃, h₃, ht₃, hp₃⟩ := hbound s₂
  obtain ⟨s, h₄, ht₄, hp₄⟩ := htype s₃
  refine ⟨s, by rw [ht₄, ht₃, ht₂, ht₁], ?_, fun made q => ?_⟩
  · rw [hp₄, hp₃, hp₂, hp₁]
  · unfold bindNode
    refine (runs_bind_of h₁).trans ((runs_bind_of h₂).trans ((runs_bind_of h₃).trans ?_))
    exact runs_bind_of h₄

/-- The bounds that an entry with these options gets from the schema of a list. -/
def entryBounds (ctx : Setup) (array : Json) (own : Members) : ArrayBounds :=
  .of .words array (ctx.optionsFor own array) ctx.options.maxItemsCap false

/-- The type of a described control is the one that its schema gives it. -/
theorem describedControl_type (ctx : Setup) (pointer : String) (schema : Json) (c : Control) :
    (describedControl ctx pointer schema c).type = boundType ctx schema (boundControl ctx c) := by
  have hdescribe : (describe ctx schema (boundControl ctx c)).1.type =
      boundType ctx schema (boundControl ctx c) := by
    simp only [describe]
    split
    · rfl
    · split <;> rfl
  rw [← hdescribe]
  unfold describedControl requiredControl
  dsimp only
  split <;> rfl

theorem expandBound_type {n : Node} (h : (Generate.expandBound ctx pointer c).Runs p n q) :
    n.control.type = c.type := by
  rcases Generate.runs_expandBound h with ⟨rfl, -⟩ | ⟨-, -, -, -, items, -, rfl⟩ |
      ⟨schema, -, -, harray⟩ | ⟨-, -, -, made, hmade, rfl⟩
  · rfl
  · rfl
  · obtain ⟨site, items, made, s, -, -, rfl, -⟩ := Generate.runs_buildArray harray
    rfl
  · obtain ⟨rfl, -⟩ := Generate.runs_buildReference hmade
    exact (Generate.referenceControl_type ctx _ c _).1

/-! ## Composed arrays and the data map -/

variable {g : Grouping} {array : Control} {bounds : ArrayBounds} {existing : Nat}
  {dataPointer : String} {items made : List Node}

theorem fillArray_dataMap
    (h : (fillArray ctx g array bounds existing dataPointer items).Runs p made q) :
    q.dataMap = p.dataMap := by
  obtain ⟨s, u, hs, h⟩ := runs_fillArray h
  have hstored : s.dataMap = p.dataMap := by
    rcases runs_storeOffered hs with ⟨rfl, -⟩ | ⟨-, t, -, rfl⟩ <;> rfl
  rcases h with ⟨-, rfl⟩ | ⟨t, -, hfill⟩
  · exact hstored
  · obtain ⟨count, more, s', hcopies, h⟩ := runs_fillFrom hfill
    obtain ⟨⟨last, rfl⟩, -⟩ := runs_copies hcopies
    rcases h with ⟨-, rfl⟩ | ⟨-, label, -, rfl⟩ <;> exact hstored

theorem asItems_dataMap (h : (asItems ctx g array bounds items).Runs p made q) :
    q.dataMap = p.dataMap := by
  rcases runs_asItems h with ⟨only, orderable, -, rfl, -⟩ | h
  · rfl
  · obtain ⟨kept, -, h⟩ := runs_regroup h
    rcases h with ⟨-, -, rfl⟩ | ⟨kind, -, rfl⟩ <;> rfl

/-- Laying out a bound node with children records no schema. -/
theorem fillBound_samePointers {schemaPointer : Option String} {bounds : Option ArrayBounds}
    {n made : Node}
    (h : (fillBound ctx true schemaPointer bounds existing n).Runs p made q) :
    p.dataMap.SamePointers q.dataMap := by
  rcases runs_fillBound h with ⟨-, rfl⟩ | ⟨-, b, -, h⟩ | ⟨hfalse, -⟩
  · exact fun _ => rfl
  · obtain ⟨items, s, filled, hitems, hfill, -⟩ := runs_expandArray h
    rw [fillArray_dataMap hfill, asItems_dataMap hitems]
    exact .update _ _ fun _ => rfl
  · cases hfalse

/-- So what is recorded for it in the end is what it was described by. -/
theorem leading?_of_recorded {n made : Node} (h : (bindNode ctx true n).Runs p made q) :
    q.dataMap.pointer? (boundKey ctx n.control) = leading? ctx p (boundKey ctx n.control) := by
  obtain ⟨c, found, bounds, existing, s₁, s, -, -, -, -, -, hfound, hsame, hfill⟩ := runs_bindNode h
  obtain ⟨s', hs', -, hrecorded⟩ := schemaPointerFor_runs ctx p (boundKey ctx n.control)
  obtain ⟨rfl, rfl⟩ := Prod.mk.inj (Option.some.inj (hs'.symm.trans hfound))
  rw [fillBound_samePointers hfill, hsame, hrecorded]

/-! ## Entries -/

/-- An entry that is bound takes an id and is titled in the end. -/
theorem composeEntry_bound {item : Json} {parts : Description.Parts} {place : String}
    (children : Option (List Node)) (pointer : String)
    (hparts : Description.ofJson? item = some parts)
    (hplace : Description.boundTo? parts (children.getD []) = some place) (hstar : place ≠ "*")
    {mapped : Mapped Node} :
    (composeEntry ctx item children pointer).Runs p mapped q ↔
      ∃ made, (bindNode ctx children.isSome
          (entryNode parts (children.getD []) pointer (p.lastId + 1))).Runs
            { p with lastId := p.lastId + 1 } made q ∧
        mapped = .one (made.modify Generate.withTitle) := by
  unfold composeEntry
  rw [runs_bind_of (runs_newId.mpr ⟨rfl, rfl⟩), hparts]
  simp only [Node.control, hplace, runs_bind, runs_pure, entryNode]
  constructor
  · rintro ⟨made, s, hmade, rfl, rfl⟩
    exact ⟨made, hmade, rfl⟩
  · rintro ⟨made, hmade, rfl⟩
    exact ⟨made, q, hmade, rfl, rfl⟩

/-- A description with one entry. -/
theorem runs_mapAll_single {entry : Entry} {above : String} {nodes : List Node} :
    (Entry.mapAll (step ctx) above 0 [entry]).Runs p nodes q ↔
      ∃ mapped, (Entry.map (step ctx) above 0 entry).Runs p mapped q ∧
        nodes = mapped.toList := by
  simp only [Entry.mapAll, runs_bind, runs_pure]
  constructor
  · rintro ⟨mapped, s, hmapped, _, _, ⟨rfl, rfl⟩, rfl, rfl⟩
    exact ⟨mapped, hmapped, List.append_nil _⟩
  · rintro ⟨mapped, hmapped, rfl⟩
    exact ⟨mapped, q, hmapped, [], q, ⟨rfl, rfl⟩, (List.append_nil _).symm, rfl⟩

/-- A form always gets its submit control, if it wants one. -/
theorem withSubmit_runs (ctx : Setup) (p : Progress) (nodes : List Node) :
    ∃ made q, (withSubmit ctx nodes).Runs p made q := by
  unfold withSubmit
  split
  · exact ⟨_, _, runs_bind.mpr ⟨_, _, runs_newId.mpr ⟨rfl, rfl⟩, runs_pure.mpr ⟨rfl, rfl⟩⟩⟩
  · exact ⟨_, _, runs_pure.mpr ⟨rfl, rfl⟩⟩

/-- The contents of a bound array that is laid out as its items. -/
theorem expandBound_array (hschema : ctx.resolved.schemaAt? pointer = some schema)
    (harray : c.dataType = some "array") (hboxes : c.type.startsWith "checkboxes" = false) :
    Generate.expandBound ctx pointer c =
      Generate.buildArray ctx (Generate.run ctx) (Generate.boundRequest pointer c) schema c := by
  simp only [Generate.expandBound, hschema, harray, hboxes]
  rfl

theorem expandBound_object (hschema : ctx.resolved.schemaAt? pointer = some schema)
    (hobject : c.dataType = some "object") (hne : c.dataPointer.getD "" ≠ "") :
    Generate.expandBound ctx pointer c = (do
      return .mk c (← Generate.buildProperties (Generate.run ctx)
        (Generate.boundRequest pointer c) schema c.layoutPointer)) := by
  simp only [Generate.expandBound, hschema, hobject, if_neg hne]
  rfl

theorem expandBound_reference (hschema : ctx.resolved.schemaAt? pointer = some schema)
    (href : c.dataType = some "$ref") :
    Generate.expandBound ctx pointer c = (do
      return .mk (← Generate.buildReference ctx (Generate.run ctx)
        (Generate.boundRequest pointer c) c) []) := by
  simp only [Generate.expandBound, hschema, href]
  rfl

/-- Nothing is laid out in checkboxes and in controls of single values. -/
theorem expandBound_leaf (hobject : c.dataType ≠ some "object")
    (harray : c.dataType = some "array" → c.type.startsWith "checkboxes" = true)
    (href : c.dataType ≠ some "$ref") : Generate.expandBound ctx pointer c = pure (.mk c []) := by
  unfold Generate.expandBound
  split
  · rfl
  · split
    · next he => exact absurd he hobject
    · next he => rw [if_pos (harray he)]
    · next he => exact absurd he href
    · rfl

theorem describedControl_dataPointer (ctx : Setup) (pointer : String) (schema : Json)
    (c : Control) : (describedControl ctx pointer schema c).dataPointer =
      some (ctx.generic (c.dataPointer.getD "")) := by
  have hdescribes : Describes (boundControl ctx c) (describe ctx schema (boundControl ctx c)).1 :=
    describe_describes schema _
  have hd := hdescribes.dataPointer
  unfold describedControl requiredControl
  dsimp only
  split <;> exact hd

end Compose

/-- The node is bound to the place. -/
def Node.isAt (place : String) (n : Node) : Bool := n.control.dataPointer == some place

namespace Form

variable {options : FormOptions} {widgets : Registry} {schema data : Option Json} {form : Form}

/-- A form of a description with one entry. -/
theorem compile_single {item : Json}
    (h : compile options widgets schema (some (.arr [item])) data = .ok form) :
    ∃ mapped q more,
      (Entry.map (Compose.step form.setup) "" 0 (Entry.ofJson item)).Runs {} mapped q ∧
      (more = [] ∨ ∃ id, more = [Compose.submitControl form.setup id]) ∧
      form.layout = Node.mapAll (Compose.withTitleMap form.setup.options.flatList)
        (mapped.toList.map (·.modify (Compose.topControl form.setup)) ++ more) ∧
      form.progress.templates = q.templates.mapControls
        (Compose.withTitleMap form.setup.options.flatList) ∧
      form.progress.dataMap = q.dataMap := by
  obtain ⟨document, entries, -, hentries, -, hrun⟩ := compile_ok h
  obtain rfl : [item] = entries := Except.ok.inj hentries
  obtain ⟨nodes, s, submitted, s', hnodes, hsubmit, hlayout, hprogress⟩ :=
    Compose.runs_layout hrun
  obtain ⟨mapped, hmapped, rfl⟩ := Compose.runs_mapAll_single.mp hnodes
  rcases Compose.runs_withSubmit hsubmit with ⟨rfl, rfl⟩ | ⟨rfl, rfl⟩
  · refine ⟨mapped, _, [], hmapped, .inl rfl, ?_, ?_, ?_⟩
    · rw [hlayout, List.append_nil]
    · rw [hprogress]
    · rw [hprogress]
  · refine ⟨mapped, _, _, hmapped, .inr ⟨_, rfl⟩, hlayout, ?_, ?_⟩
    · rw [hprogress]
    · rw [hprogress]

/-- What a form is built from does not depend on its description. -/
theorem setup_eq {layout layout' : Option Json} {form' : Form}
    (h : compile options widgets schema layout data = .ok form)
    (h' : compile options widgets schema layout' data = .ok form') : form'.setup = form.setup := by
  obtain ⟨document, entries, hdocument, -, hsetup, -⟩ := compile_ok h
  obtain ⟨document', entries', hdocument', -, hsetup', -⟩ := compile_ok h'
  obtain rfl := Except.ok.inj (hdocument.symm.trans hdocument')
  exact Option.some.inj (hsetup'.symm.trans hsetup)

/-- A form of a description with one entry is compiled if the entry is composed. -/
theorem compile_of_single {layout : Option Json} {item : Json} {mapped : Mapped Node} {q : Progress}
    (h : compile options widgets schema layout data = .ok form)
    (hrun : (Entry.map (Compose.step form.setup) "" 0 (Entry.ofJson item)).Runs {} mapped q) :
    ∃ form', compile options widgets schema (some (.arr [item])) data = .ok form' := by
  obtain ⟨document, entries, hdocument, -, hsetup, -⟩ := compile_ok h
  have hnodes := Compose.runs_mapAll_single.mpr ⟨mapped, hrun, rfl⟩
  obtain ⟨submitted, s, hsubmit⟩ := Compose.withSubmit_runs form.setup q
    (mapped.toList.map (·.modify (Compose.topControl form.setup)))
  obtain ⟨nodes, progress, hbuilt⟩ : ∃ nodes progress,
      (Compose.layout form.setup [item]).run {} = some (nodes, progress) :=
    ⟨_, _, runs_bind.mpr ⟨_, _, hnodes, runs_bind.mpr ⟨_, _, hsubmit,
      runs_bind.mpr ⟨(), _, runs_onTemplates.mpr rfl, runs_pure.mpr ⟨rfl, rfl⟩⟩⟩⟩⟩
  refine ⟨⟨nodes, form.setup, progress⟩, ?_⟩
  simp only [compile, hdocument, entriesOf, hsetup, bind, Except.bind, Option.bind_some, build?,
    hbuilt, Option.map_some, pure, Except.pure]

/-! ## Finished nodes -/

variable {name : String}

/-- What is done to a node at the top in the end. -/
def finished (ctx : Setup) (n : Node) : Node :=
  (n.modify (Compose.topControl ctx)).map (Compose.withTitleMap ctx.options.flatList)

theorem finished_dataPointer (ctx : Setup) (n : Node) :
    (finished ctx n).control.dataPointer = n.control.dataPointer := by
  rw [finished, Node.control_map,
    Compose.withTitleMap_same Control.dataPointer (fun _ _ => rfl), Node.control_modify,
    Compose.topControl_dataPointer]

/-- The first node at a place is the first one that was built for it, finished. -/
theorem find?_finished {ctx : Setup} {built more : List Node} (place : String)
    (hmore : more = [] ∨ ∃ id, more = [Compose.submitControl ctx id]) :
    (Node.mapAll (Compose.withTitleMap ctx.options.flatList)
        (built.map (·.modify (Compose.topControl ctx)) ++ more)).find? (Node.isAt place) =
      (built.find? (Node.isAt place)).map (finished ctx) := by
  have hno : (more.map (Node.map (Compose.withTitleMap ctx.options.flatList))).find?
      (Node.isAt place) = none := by
    rcases hmore with rfl | ⟨id, rfl⟩
    · rfl
    · rfl
  have hplace : (Node.isAt place) ∘ (finished ctx) = Node.isAt place := by
    funext n
    exact congrArg (· == some place) (finished_dataPointer ctx n)
  rw [Node.mapAll_eq_map, List.map_append, List.find?_append, hno, Option.or_none, List.map_map,
    ← hplace, ← List.find?_map, hplace]
  rfl

/-- The bound nodes of a layout are those that were built, finished. -/
theorem mem_finished {ctx : Setup} {built more : List Node} {n : Node} {place : String}
    (hmore : more = [] ∨ ∃ id, more = [Compose.submitControl ctx id])
    (hn : n ∈ Node.mapAll (Compose.withTitleMap ctx.options.flatList)
      (built.map (·.modify (Compose.topControl ctx)) ++ more))
    (hplace : n.control.dataPointer = some place) : ∃ m ∈ built, n = finished ctx m := by
  rw [Node.mapAll_eq_map] at hn
  obtain ⟨m, hm, rfl⟩ := List.mem_map.mp hn
  rcases List.mem_append.mp hm with hm | hm
  · obtain ⟨first, hfirst, rfl⟩ := List.mem_map.mp hm
    exact ⟨first, hfirst, rfl⟩
  · rw [Node.control_map, Compose.withTitleMap_same Control.dataPointer (fun _ _ => rfl)] at hplace
    rcases hmore with rfl | ⟨id, rfl⟩
    · exact absurd hm List.not_mem_nil
    · rw [List.mem_singleton.mp hm] at hplace
      cases hplace

end Form

end SchemaForm
