/-
How the template library is used while a layout is built.

`Journaled.layout` is the building of a layout with a journal of the library.  Only three things are
done to the library: a call that ensures a template reserves its name first, and settles it when the
template is built; and an array with children offers a template.  The steps that come to one of
these are written once more, under their own names, with the changes on record, and each keeps the
journal of the step it is written after.  So the journal of a layout is lawful, and at its end
nothing is reserved (`Form.library_protocol`).
-/
import SchemaForm.Proofs.Layout.Identity
import SchemaForm.Proofs.Layout.Recording

namespace SchemaForm

open Build Generate Compose

/-- A function that builds what a request asks for, and keeps a journal. -/
abbrev Recorder := Request → Journaled (Mapped Node)

namespace Journaled

variable {ctx : Setup} {r : Request} {record : Recorder} {build : Builder} {schema : Json}

/-! ## Templates -/

/-- Builds the template of a name that is not known yet, as the call that has reserved it. -/
def ensureTemplate (record : Recorder) (name : String) (relative : Bool) (r : Request) :
    Journaled Unit := do
  if (← (get : Build Progress)).templates.knows name then return
  let call := (← get).length
  change (.reserve name)
  let built ← record r
  change (.settle call name
    (built.toList.getLast?.map fun n => Template.of (storedNode relative n) relative))

/-- Offers a template under a name that is not known yet. -/
def storeOffered (name : String) (addable : Bool) (offered : Option Template) :
    Journaled Unit := do
  if addable && !(← (get : Build Progress)).templates.knows name then
    match offered with
    | some t => change (.offer name t)
    | none => pure ()

/-- A known name is left alone; another one is reserved, and settled when the template is built. -/
theorem runs_ensureTemplate {name : String} {relative : Bool} {j j' : Journal} {p q : Progress}
    {u : Unit} (h : ((ensureTemplate record name relative r).run j).Runs p (u, j') q) :
    (j' = j ∧ q = p) ∨ p.templates.knows name = false ∧ ∃ mapped i s made,
      ((record r).run (j ++ [⟨p.templates, .reserve name⟩])).Runs
        { p with templates := p.templates.reserve name } (mapped, i) s ∧
      j' = i ++ [⟨s.templates, .settle j.length name made⟩] ∧
      q = { s with templates := (Change.settle j.length name made).apply s.templates } := by
  obtain ⟨_, _, _, hlifted, hfound⟩ := runs_bind.mp h
  obtain ⟨hget, rfl⟩ := runs_lift.mp hlifted
  obtain ⟨rfl, rfl⟩ := Build.runs_get.mp hget
  split at hfound
  · obtain ⟨-, rfl, rfl⟩ := runs_pure.mp hfound
    exact .inl ⟨rfl, rfl⟩
  · next hnew =>
      obtain ⟨_, _, _, hread, hcalled⟩ := runs_bind.mp hfound
      obtain ⟨rfl, rfl, rfl⟩ := runs_get.mp hread
      obtain ⟨_, _, _, hreserve, hreserved⟩ := runs_bind.mp hcalled
      obtain ⟨rfl, rfl⟩ := runs_change.mp hreserve
      obtain ⟨mapped, i, s, hbuilt, hsettle⟩ := runs_bind.mp hreserved
      obtain ⟨rfl, rfl⟩ := runs_change.mp hsettle
      exact .inr ⟨Bool.not_eq_true _ ▸ hnew, mapped, i, s, _, hbuilt, rfl, rfl⟩

/-- To ensure a template is to reserve its name while it is built, and to settle that name. -/
theorem ensureTemplate_journals (h : ∀ r, Journals (record r) (build r)) (name : String)
    (relative : Bool) (r : Request) :
    Journals (ensureTemplate record name relative r)
      (Generate.ensureTemplate build name relative r) := by
  constructor
  · refine .bind (.lift get) fun p => ?_
    split
    · exact .pure ()
    · refine .read fun j => .bind (.change (.reserve name)) fun _ =>
        .bind (h r).erases fun mapped => ?_
      cases mapped.toList.getLast? with
      | some n => exact .change (.settle j.length name (some (Template.of (storedNode relative n)
          relative)))
      | none => exact .change (.settle j.length name none)
  · intro j p u j' q hruns hj
    rcases runs_ensureTemplate hruns with ⟨rfl, rfl⟩ | ⟨hnew, mapped, i, s, made, hbuilt, rfl, rfl⟩
    · exact ⟨hj, .refl _⟩
    · have hnew : j.library.knows name = false := hj.templates ▸ hnew
      obtain ⟨hcurrent, hcontinues⟩ := (h r).lawful hbuilt (hj.concat (c := .reserve name) hnew)
      have hpending : i.Pending j.length name :=
        (Journal.pending_concat rfl).grows hcontinues.grows
      exact ⟨hcurrent.concat (c := .settle j.length name made) hpending,
        hcontinues.settle hnew rfl⟩

theorem storeOffered_journals (name : String) (addable : Bool) (offered : Option Template) :
    Journals (storeOffered name addable offered) (Compose.storeOffered name addable offered) := by
  constructor
  · refine .bind (.lift get) fun p => ?_
    split
    · cases offered with
      | some t => exact .change (.offer name t)
      | none => exact .pure ()
    · exact .pure ()
  · intro j p u j' q hruns hj
    obtain ⟨_, i, _, hlifted, hfound⟩ := runs_bind.mp hruns
    obtain ⟨hget, rfl⟩ := runs_lift.mp hlifted
    obtain ⟨rfl, rfl⟩ := Build.runs_get.mp hget
    split at hfound
    · next hoffers =>
        have hnew : i.library.knows name = false := by
          rw [← hj.templates]
          simpa using (Bool.and_eq_true_iff.mp hoffers).2
        cases offered with
        | some t =>
            obtain ⟨rfl, rfl⟩ := runs_change.mp hfound
            exact ⟨hj.concat (c := .offer name t) hnew, .offer hnew⟩
        | none =>
            obtain ⟨-, rfl, rfl⟩ := runs_pure.mp hfound
            exact ⟨hj, .refl _⟩
    · obtain ⟨-, rfl, rfl⟩ := runs_pure.mp hfound
      exact ⟨hj, .refl _⟩

/-! ## Generating -/

def buildProperty (record : Recorder) (r : Request) (schema : Json) (layoutPointer name : String) :
    Journaled (List Node) := do
  let built ← record (propertyRequest r layoutPointer name)
  markRequired (Schema.isRequired schema (Pointer.child "/properties" name)) built.toList

theorem buildProperty_journals (h : ∀ r, Journals (record r) (build r)) (r : Request)
    (schema : Json) (layoutPointer name : String) :
    Journals (buildProperty record r schema layoutPointer name)
      (Generate.buildProperty build r schema layoutPointer name) :=
  .bind (h _) fun _ => .lift (quiet_markRequired _ _)

def buildProperties (record : Recorder) (r : Request) (schema : Json) (layoutPointer : String) :
    Journaled (List Node) := do
  match (schema.get? "properties").bind Json.obj? with
  | none => return []
  | some properties =>
      let nodes ← (propertyNames schema properties).mapM
        (buildProperty record r schema (childLayout r layoutPointer))
      return nodes.flatten

theorem buildProperties_journals (h : ∀ r, Journals (record r) (build r)) (r : Request)
    (schema : Json) (layoutPointer : String) :
    Journals (buildProperties record r schema layoutPointer)
      (Generate.buildProperties build r schema layoutPointer) := by
  unfold buildProperties Generate.buildProperties
  cases (schema.get? "properties").bind Json.obj? with
  | none => exact .pure []
  | some properties =>
      exact .bind (.mapM fun name _ => buildProperty_journals h r schema _ name) fun _ => .pure _

def buildTupleItem (record : Recorder) (r : Request) (site : ArraySite) (bounds : ArrayBounds)
    (removable : Bool) (index : Nat) : Journaled (Option Node) := do
  let item := Pointer.item site.array index
  if removable && bounds.minItems ≤ index then
    let name := tupleName site index
    ensureTemplate record name site.relative
      (itemTemplate r site .tuple true (Pointer.item (r.schemaPointer ++ "/items") index) item)
    Build.instantiate name ⟨item, site.layout⟩
  else return (← record (tupleRequest r site index)).toList.getLast?

theorem buildTupleItem_journals (h : ∀ r, Journals (record r) (build r)) (r : Request)
    (site : ArraySite) (bounds : ArrayBounds) (removable : Bool) (index : Nat) :
    Journals (buildTupleItem record r site bounds removable index)
      (Generate.buildTupleItem build r site bounds removable index) := by
  unfold buildTupleItem Generate.buildTupleItem
  dsimp only
  split
  · exact .bind (ensureTemplate_journals h _ _ _) fun _ => .lift (quiet_instantiate _ _)
  · exact .bind (h _) fun _ => .pure _

def buildTuple (record : Recorder) (r : Request) (site : ArraySite) (schema : Json)
    (bounds : ArrayBounds) (removable : Bool) : Journaled (List Node) := do
  match (schema.get? "items").bind Json.arr? with
  | none => return []
  | some tuple =>
      let nodes ← (List.range (min bounds.tupleItems tuple.length)).mapM
        (buildTupleItem record r site bounds removable)
      return nodes.filterMap id

theorem buildTuple_journals (h : ∀ r, Journals (record r) (build r)) (r : Request)
    (site : ArraySite) (schema : Json) (bounds : ArrayBounds) (removable : Bool) :
    Journals (buildTuple record r site schema bounds removable)
      (Generate.buildTuple build r site schema bounds removable) := by
  unfold buildTuple Generate.buildTuple
  cases (schema.get? "items").bind Json.arr? with
  | none => exact .pure []
  | some tuple =>
      exact .bind (.mapM fun index _ => buildTupleItem_journals h r site bounds removable index)
        fun _ => .pure _

def buildList (ctx : Setup) (record : Recorder) (r : Request) (site : ArraySite) (schema : Json)
    (c : Control) (bounds : ArrayBounds) (keyword : String) (items : List Node) :
    Journaled (List Node) := do
  ensureTemplate record site.name site.relative (listRequest ctx r site c keyword)
  let existing := if r.inTemplate then 0 else ctx.dataLength site.array
  let items ← fillItems site.name ⟨Pointer.anyItem site.array, site.layout⟩
    (bounds.instanceCount .words existing) items
  withAddControl ctx site schema c bounds items

theorem buildList_journals (h : ∀ r, Journals (record r) (build r)) (r : Request)
    (site : ArraySite) (schema : Json) (c : Control) (bounds : ArrayBounds) (keyword : String)
    (items : List Node) :
    Journals (buildList ctx record r site schema c bounds keyword items)
      (Generate.buildList ctx build r site schema c bounds keyword items) :=
  .bind (ensureTemplate_journals h _ _ _) fun _ =>
    .bind (.lift (quiet_fillItems _ _ _ _)) fun _ => .lift (quiet_withAddControl _ _ _ _ _ _)

def buildArray (ctx : Setup) (record : Recorder) (r : Request) (schema : Json) (c : Control) :
    Journaled Node := do
  let bounds := boundsFor ctx r schema c
  let c := boundedControl ctx r schema c
  let site := arraySite ctx r c
  let items ← buildTuple record r site schema bounds (c.flag "removable" true)
  Build.note ((Pointer.listOfItem? site.name).getD site.name) (·.withBounds bounds)
  match listKeyword? schema with
  | none => return .mk c items
  | some keyword => return .mk c (← buildList ctx record r site schema c bounds keyword items)

theorem buildArray_journals (h : ∀ r, Journals (record r) (build r)) (r : Request) (schema : Json)
    (c : Control) :
    Journals (buildArray ctx record r schema c) (Generate.buildArray ctx build r schema c) := by
  refine .bind (buildTuple_journals h _ _ _ _ _) fun items =>
    .bind (.lift (quiet_note _ _)) fun _ => ?_
  cases listKeyword? schema with
  | none => exact .pure _
  | some keyword => exact .bind (buildList_journals h _ _ _ _ _ _ _) fun _ => .pure _

def buildReference (ctx : Setup) (record : Recorder) (r : Request) (c : Control) :
    Journaled Control := do
  let name := ctx.dataKey r.fullPointer
  let c := referenceControl ctx r c name
  ensureTemplate record name true (targetRequest ctx r c)
  return c

theorem buildReference_journals (h : ∀ r, Journals (record r) (build r)) (r : Request)
    (c : Control) :
    Journals (buildReference ctx record r c) (Generate.buildReference ctx build r c) :=
  .bind (ensureTemplate_journals h _ _ _) fun _ => .pure _

/-- A choice by the type of data keeps the journal of one, branch by branch. -/
theorem onDataType {α : Type} {O A R S : Journaled α} {o a ref s : Build α} (type : Option String)
    (object : Journals O o) (array : Journals A a) (reference : Journals R ref)
    (scalar : Journals S s) :
    Journals
      (match type with
        | some "object" => O
        | some "array" => A
        | some "$ref" => R
        | _ => S)
      (match type with
        | some "object" => o
        | some "array" => a
        | some "$ref" => ref
        | _ => s) := by
  split
  · exact object
  · exact array
  · exact reference
  · exact scalar

def complete (ctx : Setup) (record : Recorder) (r : Request) (schema : Json) (c : Control) :
    Journaled (Mapped Node) := do
  match c.dataType with
  | some "object" =>
      let children ← buildProperties record r schema c.layoutPointer
      return if r.isRoot then .many children else .one (.mk c children)
  | some "array" =>
      if c.type.startsWith "checkboxes" then
        match (schema.get? "items").filter Json.isObj with
        | some items => return .one (.mk { c with options := ctx.optionsFor c.options items } [])
        | none => return .one (.mk c [])
      else return .one (← buildArray ctx record r schema c)
  | some "$ref" => return .one (.mk (← buildReference ctx record r c) [])
  | _ => return .one (.mk c [])

theorem complete_journals (h : ∀ r, Journals (record r) (build r)) (r : Request) (schema : Json)
    (c : Control) :
    Journals (complete ctx record r schema c) (Generate.complete ctx build r schema c) := by
  refine onDataType c.dataType ?_ ?_ ?_ (.pure _)
  · exact .bind (buildProperties_journals h r schema _) fun _ => .pure _
  · split
    · cases (schema.get? "items").filter Json.isObj with
      | none => exact .pure _
      | some items => exact .pure _
    · exact .bind (buildArray_journals h r schema c) fun _ => .pure _
  · exact .bind (buildReference_journals h r c) fun _ => .pure _

def buildSchema (ctx : Setup) (record : Recorder) (r : Request) (schema : Json) (type : String) :
    Journaled (Mapped Node) := do
  let id ← if r.inTemplate then pure none else some <$> (Build.newId : Journaled Nat)
  let c := controlFor ctx r schema type id
  if r.dataPointer ≠ "" && !r.inTemplate then
    Build.note (ctx.dataKey (c.dataPointer.getD "")) (entryFor r schema c)
  complete ctx record r schema c

theorem buildSchema_journals (h : ∀ r, Journals (record r) (build r)) (r : Request) (schema : Json)
    (type : String) :
    Journals (buildSchema ctx record r schema type)
      (Generate.buildSchema ctx build r schema type) := by
  have hid : Journals (some <$> (newId : Journaled Nat)) (some <$> newId) :=
    .map some (.lift quiet_newId)
  have hcomplete : ∀ id, Journals (complete ctx record r schema (controlFor ctx r schema type id))
      (Generate.complete ctx build r schema (controlFor ctx r schema type id)) :=
    fun id => complete_journals h r schema _
  unfold buildSchema Generate.buildSchema
  split
  · split
    · exact .bind (.pure none) fun id => .bind (.lift (quiet_note _ _)) fun _ => hcomplete id
    · exact .bind hid fun id => .bind (.lift (quiet_note _ _)) fun _ => hcomplete id
  · split
    · exact .bind (.pure none) hcomplete
    · exact .bind hid hcomplete

def buildOne (ctx : Setup) (record : Recorder) (r : Request) : Journaled (Mapped Node) := do
  match (ctx.resolved.schemaAt? r.schemaPointer).filter isDescribed with
  | none => return .drop
  | some schema =>
      match Schema.controlType? schema [] with
      | none => return .drop
      | some type => buildSchema ctx record r schema type

theorem buildOne_journals (h : ∀ r, Journals (record r) (build r)) (r : Request) :
    Journals (buildOne ctx record r) (Generate.buildOne ctx build r) := by
  unfold buildOne Generate.buildOne
  cases (ctx.resolved.schemaAt? r.schemaPointer).filter isDescribed with
  | none => exact .pure _
  | some schema =>
      dsimp only
      cases Schema.controlType? schema [] with
      | none => exact .pure _
      | some type => exact buildSchema_journals h r schema type

def buildNode (ctx : Setup) : Nat → Recorder
  | 0, _ => failure
  | fuel + 1, r => buildOne ctx (buildNode ctx fuel) r

def generate (ctx : Setup) : Recorder := buildNode ctx (depthLimit ctx)

theorem buildNode_journals (fuel : Nat) (r : Request) :
    Journals (buildNode ctx fuel r) (Generate.buildNode ctx fuel r) := by
  induction fuel generalizing r with
  | zero => exact .failure
  | succ fuel ih => exact buildOne_journals ih r

theorem generate_journals (r : Request) : Journals (generate ctx r) (Generate.run ctx r) :=
  buildNode_journals _ r

def expandBound (ctx : Setup) (schemaPointer : String) (c : Control) : Journaled Node := do
  match ctx.resolved.schemaAt? schemaPointer with
  | none => return .mk c []
  | some schema =>
      let r := boundRequest schemaPointer c
      match c.dataType with
      | some "object" =>
          if r.dataPointer = "" then return .mk c []
          else return .mk c (← buildProperties (generate ctx) r schema c.layoutPointer)
      | some "array" =>
          if c.type.startsWith "checkboxes" then return .mk c []
          else buildArray ctx (generate ctx) r schema c
      | some "$ref" => return .mk (← buildReference ctx (generate ctx) r c) []
      | _ => return .mk c []

theorem expandBound_journals (schemaPointer : String) (c : Control) :
    Journals (expandBound ctx schemaPointer c) (Generate.expandBound ctx schemaPointer c) := by
  unfold expandBound Generate.expandBound
  cases ctx.resolved.schemaAt? schemaPointer with
  | none => exact .pure _
  | some schema =>
      dsimp only [boundRequest]
      refine onDataType c.dataType ?_ ?_ ?_ (.pure _)
      · split
        · exact .pure _
        · exact .bind (buildProperties_journals generate_journals _ schema _) fun _ => .pure _
      · split
        · exact .pure _
        · exact buildArray_journals generate_journals _ schema c
      · exact .bind (buildReference_journals generate_journals _ c) fun _ => .pure _

/-! ## Composing -/

def fillArray (ctx : Setup) (g : Grouping) (array : Control) (bounds : ArrayBounds)
    (existing : Nat) (dataPointer : String) (items : List Node) : Journaled (List Node) := do
  let name := fillName ctx g
  let offered := offered? ctx g array items
  storeOffered name (array.flag "addable" true) offered
  match ((← (get : Build Progress)).templates.template? name).or offered with
  | none => return items
  | some t => fillFrom ctx g array bounds existing dataPointer name t items

theorem fillArray_journals (g : Grouping) (array : Control) (bounds : ArrayBounds)
    (existing : Nat) (dataPointer : String) (items : List Node) :
    Journals (fillArray ctx g array bounds existing dataPointer items)
      (Compose.fillArray ctx g array bounds existing dataPointer items) := by
  refine .bind (storeOffered_journals _ _ _) fun _ => .bind (.lift quiet_get) fun p => ?_
  show Journals (match (p.templates.template? (fillName ctx g)).or (offered? ctx g array items) with
    | none => _
    | some t => _) (match (p.templates.template? (fillName ctx g)).or
        (offered? ctx g array items) with
    | none => _
    | some t => _)
  cases (p.templates.template? (fillName ctx g)).or (offered? ctx g array items) with
  | none => exact .pure items
  | some t => exact .lift (quiet_fillFrom _ _ _ _ _ _ _ _ _)

def expandArray (ctx : Setup) (bounds : ArrayBounds) (existing : Nat) (n : Node) :
    Journaled Node := do
  let array := n.control
  let g := groupingFor ctx array
  Build.note g.key ({ · with inputType := some "section" })
  let items ← asItems ctx g array bounds n.items
  return .mk array (← fillArray ctx g array bounds existing (array.dataPointer.getD "") items)

theorem expandArray_journals (bounds : ArrayBounds) (existing : Nat) (n : Node) :
    Journals (expandArray ctx bounds existing n) (Compose.expandArray ctx bounds existing n) :=
  .bind (.lift (quiet_note _ _)) fun _ => .bind (.lift (quiet_asItems _ _ _ _ _)) fun _ =>
    .bind (fillArray_journals _ _ _ _ _ _) fun _ => .pure _

def fillBound (ctx : Setup) (isContainer : Bool) (schemaPointer : Option String)
    (bounds : Option ArrayBounds) (existing : Nat) (n : Node) : Journaled Node :=
  if isContainer then
    match bounds, n.items with
    | some bounds, _ :: _ => expandArray ctx bounds existing n
    | _, _ => return n
  else
    match schemaPointer with
    | some pointer => expandBound ctx pointer n.control
    | none => return n

theorem fillBound_journals (isContainer : Bool) (schemaPointer : Option String)
    (bounds : Option ArrayBounds) (existing : Nat) (n : Node) :
    Journals (fillBound ctx isContainer schemaPointer bounds existing n)
      (Compose.fillBound ctx isContainer schemaPointer bounds existing n) := by
  unfold fillBound Compose.fillBound
  split
  · cases bounds with
    | none => exact .pure n
    | some bounds =>
        cases n.items with
        | nil => exact .pure n
        | cons _ _ => exact expandArray_journals bounds existing n
  · cases schemaPointer with
    | none => exact .pure n
    | some pointer => exact expandBound_journals pointer n.control

def bindNode (ctx : Setup) (isContainer : Bool) (n : Node) : Journaled Node := do
  let given := n.control.dataPointer.getD ""
  let dataPointer := ctx.generic given
  let c := { n.control with
    dataPointer := some dataPointer,
    name := n.control.name.or ((Pointer.last? dataPointer).filter (· ≠ Pointer.wildcard)) }
  let key := ctx.dataKey dataPointer
  let schemaPointer ← schemaPointerFor ctx key
  Build.note key ({ · with disabled := c.flag "disabled" false })
  let (c, bounds) ← describeBound ctx key schemaPointer c
  let c := { c with options := withCopyTargets c.options, widget := ctx.widget? c.type }
  Build.note key ({ · with inputType := some c.type })
  fillBound ctx isContainer schemaPointer bounds (ctx.dataLength given)
    (typeChildren ctx (.mk c n.items))

theorem bindNode_journals (isContainer : Bool) (n : Node) :
    Journals (bindNode ctx isContainer n) (Compose.bindNode ctx isContainer n) :=
  .bind (.lift (quiet_schemaPointerFor _ _)) fun _ => .bind (.lift (quiet_note _ _)) fun _ =>
    .bind (.lift (quiet_describeBound _ _ _ _)) fun _ => .bind (.lift (quiet_note _ _)) fun _ =>
      fillBound_journals _ _ _ _ _

/-- A choice by what an entry is bound to keeps the journal of one, branch by branch. -/
theorem onBinding {α : Type} {W B F : Journaled α} {w b f : Build α} (pointer : Option String)
    (whole : Journals W w) (bound : Journals B b) (free : Journals F f) :
    Journals
      (match pointer with
        | some "*" => W
        | some _ => B
        | none => F)
      (match pointer with
        | some "*" => w
        | some _ => b
        | none => f) := by
  split
  · exact whole
  · exact bound
  · exact free

def composeEntry (ctx : Setup) (item : Json) (children : Option (List Node)) (pointer : String) :
    Journaled (Mapped Node) := do
  let id ← Build.newId
  match Description.ofJson? item with
  | none => return .drop
  | some parts =>
      let n := entryNode parts (children.getD []) pointer id
      match n.control.dataPointer with
      | some "*" =>
          generate ctx { layoutPointer :=
            (Pointer.listOfItem? n.control.layoutPointer).getD n.control.layoutPointer }
      | some _ => return .one ((← bindNode ctx children.isSome n).modify withTitle)
      | none => return .one ((finishFree ctx children.isSome n).modify withTitle)

theorem composeEntry_journals (item : Json) (children : Option (List Node)) (pointer : String) :
    Journals (composeEntry ctx item children pointer)
      (Compose.composeEntry ctx item children pointer) := by
  refine .bind (.lift quiet_newId) fun id => ?_
  cases Description.ofJson? item with
  | none => exact .pure _
  | some parts =>
      refine onBinding (Description.boundTo? parts (children.getD [])) (generate_journals _) ?_
        (.pure _)
      exact .bind (bindNode_journals _ _) fun _ => .pure _

mutual

/-- A walk through entries keeps the journal of one if each of its steps does. -/
theorem map_journals {F : Entry.Step Journaled Node} {f : Entry.Step Build Node}
    (h : ∀ item children index pointer,
      Journals (F item children index pointer) (f item children index pointer)) (above : String) :
    ∀ (entry : Entry) (index : Nat),
      Journals (Entry.map F above index entry) (Entry.map f above index entry)
  | .leaf item, index => h item none index _
  | .branch item children, index =>
      .bind (mapAll_journals h _ children 0) fun built => h item (some built) index _

theorem mapAll_journals {F : Entry.Step Journaled Node} {f : Entry.Step Build Node}
    (h : ∀ item children index pointer,
      Journals (F item children index pointer) (f item children index pointer)) (above : String) :
    ∀ (entries : List Entry) (index : Nat),
      Journals (Entry.mapAll F above index entries) (Entry.mapAll f above index entries)
  | [], _ => .pure []
  | entry :: rest, index =>
      .bind (map_journals h above entry index) fun _ =>
        .bind (mapAll_journals h above rest _) fun _ => .pure _

end

/-- The layout of a description, but for the title maps. -/
def layout (ctx : Setup) (entries : List Json) : Journaled (List Node) := do
  let nodes ← Entry.mapAll (fun item children _ pointer => composeEntry ctx item children pointer)
    "" 0 (Entry.ofItems entries)
  withSubmit ctx (nodes.map (·.modify (topControl ctx)))

theorem layout_journals (ctx : Setup) (entries : List Json) :
    Journals (layout ctx entries) (do
      let nodes ← Entry.mapAll (step ctx) "" 0 (Entry.ofItems entries)
      withSubmit ctx (nodes.map (·.modify (topControl ctx)))) :=
  .bind (mapAll_journals
    (fun item children _ pointer => composeEntry_journals item children pointer)
    "" (Entry.ofItems entries) 0) fun _ => .lift (quiet_withSubmit _ _)

/-- But for the journal a layout is made as ever. -/
theorem layout_erased (ctx : Setup) (entries : List Json) :
    Compose.layout ctx entries = (do
      let nodes ← Prod.fst <$> (layout ctx entries).run []
      onTemplates (·.mapControls (withTitleMap ctx.options.flatList))
      return Node.mapAll (withTitleMap ctx.options.flatList) nodes) := by
  rw [(layout_journals ctx entries).erases [], bind_assoc]
  rfl

end Journaled

namespace Form

/-- Title maps are all that is filled in. -/
theorem withTitleMap_titleMap (flat : Bool) (c : Control) :
    ∃ titleMap, withTitleMap flat c = { c with titleMap } := by
  unfold withTitleMap
  split
  · exact ⟨c.titleMap, rfl⟩
  · exact ⟨_, rfl⟩

/-- **How the library is used.**  The layout of a form is built by a run with a journal of what is
done to the library.  Every change is made to what the earlier ones have left: a name is reserved,
or given a template that is there already, while it is not known, and a name that is reserved is
changed by no call but the one that reserved it.  The names that are reserved at any time are those
which one call each is still to settle, and a name with a template keeps it from then on.  At the
end nothing is reserved, and title maps are filled in.  But for its journal the run is the one that
makes the layout. -/
theorem library_protocol {setup : Setup} {entries : List Json} {form : Form}
    (h : build? setup entries = some form) :
    Compose.layout setup entries = (do
        let nodes ← Prod.fst <$> (Journaled.layout setup entries).run []
        onTemplates (·.mapControls (withTitleMap setup.options.flatList))
        return Node.mapAll (withTitleMap setup.options.flatList) nodes) ∧
    ∃ (nodes : List Node) (journal : Journal) (p : Progress),
      ((Journaled.layout setup entries).run []).Runs {} (nodes, journal) p ∧
      form.layout = Node.mapAll (withTitleMap setup.options.flatList) nodes ∧
      form.progress = { p with templates := form.progress.templates } ∧
      (∀ (before : Journal) (e : Event) (after : Journal), journal = before ++ e :: after →
        e.found = before.library ∧ before.Permits e.change ∧
          (before.library.isReserved e.change.name = true → ∃ call made,
            e.change = .settle call e.change.name made ∧
              before.Pending call e.change.name)) ∧
      (∀ before after : Journal, journal = before ++ after → ∀ name,
        before.library.isReserved name = true ↔ ∃! call, before.Pending call name) ∧
      (∀ before middle after : Journal, journal = before ++ middle ++ after →
        before.library.Keeps (before ++ middle).library) ∧
      (∀ name, form.progress.templates.template? name = (journal.library.template? name).map
        fun t => ⟨t.node.map (withTitleMap setup.options.flatList), t.relative⟩) ∧
      (∀ c, ∃ titleMap, withTitleMap setup.options.flatList c = { c with titleMap }) ∧
      ∀ name, form.progress.templates.isReserved name = false := by
  have herased := Journaled.layout_erased setup entries
  obtain ⟨⟨made, q⟩, hrun, rfl⟩ := Option.map_eq_some_iff.mp h
  rw [herased] at hrun
  obtain ⟨nodes, p, hruns, hfilled⟩ := runs_bind.mp hrun
  obtain ⟨_, q, htemplates, hmade⟩ := runs_bind.mp hfilled
  obtain rfl := runs_onTemplates.mp htemplates
  obtain ⟨rfl, rfl⟩ := runs_pure.mp hmade
  obtain ⟨⟨nodes, journal⟩, hrecorded, rfl⟩ := runs_map.mp hruns
  obtain ⟨hcurrent, hcontinues⟩ :=
    (Journaled.layout_journals setup entries).lawful hrecorded ⟨.nil, rfl⟩
  refine ⟨herased, nodes, journal, p, hrecorded, rfl, rfl, ?_, ?_, ?_, ?_,
    withTitleMap_titleMap _, ?_⟩
  · rintro before e after rfl
    obtain ⟨hfound, hpermits⟩ := hcurrent.lawful.made
    exact ⟨hfound, hpermits, hpermits.of_reserved⟩
  · rintro before after rfl name
    rw [hcurrent.lawful.of_append.isReserved_iff]
    constructor
    · rintro ⟨call, hcall⟩
      exact ⟨call, hcall, fun other hother => hother.unique hcall⟩
    · exact ExistsUnique.exists
  · rintro before middle after rfl
    exact hcurrent.lawful.of_append.keeps
  · intro name
    rw [← hcurrent.templates]
    exact Library.template?_mapControls _ _ _
  · intro name
    rw [Library.isReserved_mapControls, hcurrent.templates, ← Bool.not_eq_true]
    exact fun hreserved => Bool.false_ne_true (hcontinues.released name hreserved)

/-- The template of a tag is kept, and no name stays reserved. -/
theorem library_protocol_tags : ∃ setup form, setupOf? {} [] tagsSchema none = some setup ∧
    build? setup [.str "*"] = some form ∧
    (form.progress.templates.template? "/tags/-").isSome = true ∧
    ∀ name, form.progress.templates.isReserved name = false := by
  have hbuilt : (((setupOf? {} [] tagsSchema none).bind (build? · [.str "*"])).any
      fun form => (form.progress.templates.template? "/tags/-").isSome) = true := by
    decide +kernel
  obtain ⟨form, hform, htemplate⟩ := (Option.any_eq_true _ _).mp hbuilt
  obtain ⟨setup, hsetup, hform⟩ := Option.bind_eq_some_iff.mp hform
  obtain ⟨-, -, -, -, -, -, -, -, -, -, -, -, hnone⟩ := library_protocol hform
  exact ⟨setup, form, hsetup, hform, htemplate, hnone⟩

end Form

end SchemaForm
