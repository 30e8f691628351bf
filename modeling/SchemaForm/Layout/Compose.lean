/-
Layouts composed from a description.

Each entry is bound to a place of the data or stands for itself.  An entry bound
to an array lays out as many items as there are to be, copied from the last of
its children, and an entry without children is filled in from the schema.
-/
import SchemaForm.Layout.Entry
import SchemaForm.Layout.Generate
import SchemaForm.TitleMap.Build

namespace SchemaForm

namespace Compose

/-- Gives a control a type and the widget of that type. -/
def setType (ctx : Setup) (type : String) (c : Control) : Control :=
  { c with type, widget := ctx.widget? type }

/-- The containers whose children are tabs. -/
def tabContainers : List String := ["tabs", "tabarray"]

/-- Types a child of a container that has no type, and marks it in an array when
it is bound to nothing. -/
def typeChild (ctx : Setup) (container : String) (child : Node) : Node :=
  child.modify fun c =>
    let c :=
      if c.type ≠ "" then c
      else setType ctx (if tabContainers.contains container then "tab" else "section") c
    if c.dataPointer.isNone && container == "array" then { c with arrayItem := true } else c

/-- Types the children of a container. -/
def typeChildren (ctx : Setup) (n : Node) : Node :=
  n.withItems (n.items.map (typeChild ctx n.control.type))

/-- The targets of `copyValueTo`, one dotted path or a list of them, as generic pointers. -/
def withCopyTargets (options : Members) : Members :=
  let pointers (paths : List String) : Members :=
    Table.insert options "copyValueTo" (Json.strs (paths.map Pointer.genericOfPath))
  match Table.get? options "copyValueTo" with
  | some (.str path) => pointers [path]
  | some (.arr paths) => pointers (paths.filterMap Json.str?)
  | _ => options

/-! ## Items of arrays -/

/-- Marks the only child of an array as its item. -/
def markOnlyItem (itemPointer : String) (orderable : Bool) (bounds : ArrayBounds) (c : Control) :
    Control :=
  let options := if Table.has c.options "removable" then c.options
    else Table.insert c.options "removable" (.bool true)
  { c with
    arrayItem := true,
    dataPointer := c.dataPointer.or (some itemPointer),
    options := if orderable then options else Table.insert options "orderable" (.bool false),
    itemKind := some (if 0 < bounds.tupleItems then .tuple else .list) }

/-- Where the loose fields of an array item are, and where the item goes. -/
structure Grouping where
  /-- The shallowest pointer of the items. -/
  key : String
  /-- The data pointer of the item. -/
  item : String
  /-- The layout pointer of the array. -/
  array : String
  /-- The layout pointer of the item. -/
  layout : String

/-- Whether a child is bound within the item. -/
def Grouping.holds (g : Grouping) (n : Node) : Bool :=
  n.control.dataPointer.any (Pointer.covers g.key)

/-- Moves a control of the item below the item. -/
def Grouping.moved (g : Grouping) (c : Control) : Control :=
  { c with
    dataPointer := c.dataPointer.map fun p =>
      if Pointer.covers g.key p then g.item ++ Pointer.after g.key p else p,
    layoutPointer := match Pointer.dropStart? g.array c.layoutPointer with
      | some rest => g.layout ++ rest
      | none => c.layoutPointer }

/-- The section that gathers the loose fields of an item. -/
def gathered (ctx : Setup) (g : Grouping) (removable : Bool) (kind : ItemKind) (id : Nat)
    (fields : List Node) : Node :=
  .mk {
    id := some id
    type := "section"
    dataPointer := some g.item
    layoutPointer := g.layout
    options := [("removable", .bool removable)]
    arrayItem := true
    itemKind := some kind
    widget := ctx.widget? "section" } (Node.mapAll g.moved fields)

/-- Marks the children of an array that stay by themselves, and gathers the loose
fields of its item in one section after them. -/
def regroup (ctx : Setup) (g : Grouping) (removable : Bool) (bounds : ArrayBounds)
    (children : List Node) : Build (List Node) := do
  let (fields, others) := children.partition g.holds
  let kept := others.map (·.modify fun c =>
    { c.setOption "removable" (.bool removable) with arrayItem := true, itemKind := some .list })
  if fields.isEmpty then return kept
  let kind := if kept.length < bounds.tupleItems then .tuple else .list
  return kept ++ [gathered ctx g removable kind (← Build.newId) fields]

/-- The children of an array as its items. -/
def asItems (ctx : Setup) (g : Grouping) (array : Control) (bounds : ArrayBounds)
    (children : List Node) : Build (List Node) := do
  match children with
  | [only] =>
      let orderable := !(Table.get? array.options "orderable" == some (.bool false))
      return [only.modify (markOnlyItem (ctx.generic g.key) orderable bounds)]
  | _ => regroup ctx g (array.flag "removable" true) bounds children

/-- Makes the pointers of a control in an item start at the item. -/
def fromItem (item layoutBase : String) (c : Control) : Control :=
  { c with
    dataPointer := c.dataPointer.map fun p =>
      if Pointer.covers item p then Pointer.after item p else p,
    layoutPointer := (Pointer.dropStart? layoutBase c.layoutPointer).getD c.layoutPointer }

/-- The template made of an array's last item. -/
def templateOf (item layoutBase : String) (relative : Bool) (last : Node) : Template :=
  let node := last.modify ({ · with recursive := relative })
  Template.of (if relative then node.map (fromItem item layoutBase) else node) relative

/-- The label of the control that adds an item to a composed array. -/
def addLabelFor (ctx : Setup) (array : Control) (dataPointer : String) : String :=
  let above := Schema.aboveData? ctx.schema dataPointer
  Text.addLabel array.title? array.name ((above.bind (·.get? "title")).bind Json.str?)
    (Pointer.beforeLast? dataPointer)

/-- Stores the template that an array offers, unless its name is known already or
no item may be added. -/
def storeOffered (name : String) (addable : Bool) (offered : Option Template) : Build Unit := do
  if addable && !(← get).templates.knows name then
    match offered with
    | some t => Build.onTemplates (·.store name t)
    | none => pure ()

/-- Fills an array with copies of a template up to the number of items that there
are to be, and adds the control that adds one. -/
def fillFrom (ctx : Setup) (g : Grouping) (array : Control) (bounds : ArrayBounds)
    (existing : Nat) (dataPointer name : String) (t : Template) (items : List Node) :
    Build (List Node) := do
  let count := bounds.instanceCount .words existing
  let items := items ++ (← Build.copies t ⟨g.item, g.layout⟩ (count - items.length))
  if !array.flag "addable" true || bounds.maxItems ≤ items.length then return items
  let label := addLabelFor ctx array dataPointer
  return items ++ [Generate.addControl ctx array name (name != g.item) label bounds (← Build.newId)]

/-- Fills an array from the stored template of its items, or from its last item.
The option `addable` decides about the adding control and about storing the
template, not about the number. -/
def fillArray (ctx : Setup) (g : Grouping) (array : Control) (bounds : ArrayBounds)
    (existing : Nat) (dataPointer : String) (items : List Node) : Build (List Node) := do
  let name := ctx.dataKey (ctx.generic g.key)
  let offered :=
    items.getLast?.map (templateOf g.item (array.layoutPointer ++ "/items") (name != g.item))
  storeOffered name (array.flag "addable" true) offered
  match ((← get).templates.template? name).or offered with
  | none => return items
  | some t => fillFrom ctx g array bounds existing dataPointer name t items

/-- Lays out the items of an array with children. -/
def expandArray (ctx : Setup) (bounds : ArrayBounds) (existing : Nat) (n : Node) : Build Node := do
  let array := n.control
  let dataPointer := array.dataPointer.getD ""
  let item := Pointer.anyItem dataPointer
  let g : Grouping :=
    { key := ctx.dataKey item, item, array := array.layoutPointer,
      layout := Pointer.anyItem (array.layoutPointer ++ "/items") }
  Build.note g.key ({ · with inputType := some "section" })
  let items ← asItems ctx g array bounds n.items
  return .mk array (← fillArray ctx g array bounds existing dataPointer items)

/-! ## Bound entries -/

/-- The schema pointer of a data location, as recorded or as found in the schema;
one that was found is recorded. -/
def schemaPointerFor (ctx : Setup) (key : String) : Build (Option String) := do
  match (Table.get? (← get).dataMap key).bind DataEntry.schemaPointer with
  | some pointer => return some pointer
  | none =>
      let pointer := Schema.pointerOfData? ctx.schema key
      Build.note key ({ · with schemaPointer := pointer })
      return pointer

/-- The type of a bound control: its own where there is a widget for it, and the
one that the schema suggests otherwise. -/
def boundType (ctx : Setup) (schema : Json) (c : Control) : String :=
  if c.type ≠ "" ∧ Table.has ctx.widgets c.type then Schema.inlineType c.type schema c.options
  else (Schema.controlType? schema c.options).getD "none"

/-- A bound control with the options of its schema, and its bounds if it is an
array of items. -/
def describe (ctx : Setup) (schema : Json) (c : Control) : Control × Option ArrayBounds :=
  let type := boundType ctx schema c
  let options := ctx.optionsFor c.options schema
  let c := { c with type, options, dataType := Generate.dataType? schema }
  match type == "checkboxes", schema.get? "items" with
  | true, some items => ({ c with options := ctx.optionsFor options items }, none)
  | _, _ =>
      if c.dataType = some "array" then
        let bounds := ArrayBounds.of .words schema options ctx.options.maxItemsCap false
        ({ c with options := bounds.writeOptions options }, some bounds)
      else (c, none)

/-- Describes a bound control by its schema and records what that says. -/
def bindToSchema (ctx : Setup) (key schemaPointer : String) (schema : Json) (c : Control) :
    Build (Control × Option ArrayBounds) := do
  let (c, bounds) := describe ctx schema c
  Build.note key fun e =>
    { (match bounds with
        | some b => e.withBounds b
        | none => e) with validators := Schema.validators schema }
  if Schema.isRequired ctx.schema schemaPointer then
    Build.noteRequired
    return (c.setOption "required" (.bool true), bounds)
  else return (c, bounds)

/-- Describes a bound control that no schema describes. -/
def describeFree (ctx : Setup) (c : Control) : Control :=
  let options := ctx.optionsFor c.options (.obj [])
  { c with
    options,
    type := if c.type = "" then (Schema.controlType? (.obj []) options).getD "" else c.type }

/-- Describes a bound control by its schema, or by none where there is none. -/
def describeBound (ctx : Setup) (key : String) (schemaPointer : Option String) (c : Control) :
    Build (Control × Option ArrayBounds) :=
  match schemaPointer, schemaPointer.bind ctx.resolved.schemaAt? with
  | some pointer, some schema => bindToSchema ctx key pointer schema c
  | _, _ => pure (describeFree ctx c, none)

/-- Lays out what a bound node contains: the items of an array from its children,
and a node without children from its schema. -/
def fillBound (ctx : Setup) (isContainer : Bool) (schemaPointer : Option String)
    (bounds : Option ArrayBounds) (existing : Nat) (n : Node) : Build Node :=
  if isContainer then
    match bounds, n.items with
    | some bounds, _ :: _ => expandArray ctx bounds existing n
    | _, _ => return n
  else
    match schemaPointer with
    | some pointer => Generate.expandBound ctx pointer n.control
    | none => return n

/-- Binds a node to the data at its pointer. -/
def bindNode (ctx : Setup) (isContainer : Bool) (n : Node) : Build Node := do
  let given := n.control.dataPointer.getD ""
  let dataPointer := ctx.generic given
  let c := { n.control with
    dataPointer := some dataPointer,
    name := n.control.name.or ((Pointer.last? dataPointer).filter (· ≠ Pointer.wildcard)) }
  let key := ctx.dataKey dataPointer
  let schemaPointer ← schemaPointerFor ctx key
  Build.note key ({ · with disabled := c.flag "disabled" false })
  let (c, bounds) ← describeBound ctx key schemaPointer c
  let c := { c with options := withCopyTargets c.options, widget := ctx.widget? c.type }
  Build.note key ({ · with inputType := some c.type })
  fillBound ctx isContainer schemaPointer bounds (ctx.dataLength given)
    (typeChildren ctx (.mk c n.items))

/-! ## Entries -/

/-- Finishes a node that is bound to nothing: one with a type or with children
gets the default options. -/
def finishFree (ctx : Setup) (isContainer : Bool) (n : Node) : Node :=
  let c := n.control
  if c.type ≠ "" ∨ isContainer then
    let c := { c with options := ctx.optionsFor c.options (.obj []) }
    let c := if c.type = "" then c else { c with widget := ctx.widget? c.type }
    typeChildren ctx (.mk c n.items)
  else n

/-- The node of an entry whose children are built already.  The pointer `*` stands
for everything in the schema. -/
def composeEntry (ctx : Setup) (item : Json) (children : Option (List Node)) (pointer : String) :
    Build (Mapped Node) := do
  let id ← Build.newId
  match Description.ofJson? item with
  | none => return .drop
  | some parts =>
      let items := children.getD []
      let layoutPointer := Pointer.genericLayout pointer
      let n : Node := .mk {
        id := some id
        type := parts.type
        name := parts.name
        dataPointer := Description.boundTo? parts items
        layoutPointer
        options := parts.options } items
      match n.control.dataPointer with
      | some "*" =>
          Generate.wholeSchema ctx ((Pointer.listOfItem? layoutPointer).getD layoutPointer)
      | some _ => return .one ((← bindNode ctx children.isSome n).modify Generate.withTitle)
      | none => return .one ((finishFree ctx children.isSome n).modify Generate.withTitle)

/-- The step that composes one entry. -/
def step (ctx : Setup) : Entry.Step Build Node := fun item children _ pointer =>
  composeEntry ctx item children pointer

/-! ## Title maps -/

/-- The controls that present a title map. -/
def selectionTypes : List String := [
  "select", "radios", "radios-inline", "radiobuttons", "checkboxes", "checkboxes-inline",
  "checkboxbuttons"]

/-- Gives a selection control its title map. -/
def withTitleMap (flat : Bool) (c : Control) : Control :=
  if c.titleMap.isSome || !selectionTypes.contains c.type then c
  else
    let required := c.type.startsWith "checkbox" || c.flag "required" false
    { c with titleMap := some (TitleMap.build (Table.get? c.options "titleMap")
        ((Table.get? c.options "enum").bind Json.arr?) required (c.flag "flatList" flat)) }

/-! ## Whole layouts -/

/-- The submit control that a form gets when it has none. -/
def submitControl (ctx : Setup) (id : Nat) : Node :=
  .mk {
    id := some id
    type := "submit"
    layoutPointer := Pointer.anyItem ""
    options := [("title", .str "Submit")]
    widget := ctx.widget? "submit" } []

/-- Adds a submit control where the form wants one and has none at the top. -/
def withSubmit (ctx : Setup) (nodes : List Node) : Build (List Node) := do
  if ctx.options.addSubmit && !nodes.any (·.control.type == "submit") then
    return nodes ++ [submitControl ctx (← Build.newId)]
  else return nodes

/-- The layout of a description. -/
def layout (ctx : Setup) (entries : List Json) : Build (List Node) := do
  let nodes ← Entry.mapAll (step ctx) "" 0 (Entry.ofItems entries)
  let nodes := nodes.map (·.modify fun c => if c.type = "" then setType ctx "section" c else c)
  let nodes ← withSubmit ctx nodes
  let flat := ctx.options.flatList
  Build.onTemplates (·.mapControls (withTitleMap flat))
  return Node.mapAll (withTitleMap flat) nodes

end Compose

end SchemaForm
