/-
Layouts generated from the schema alone.

An object becomes a container with a node per property, an array a container
with its items and a control that adds one, and a remaining reference a control
that stands for its target.  The items of an array and the targets of references
are copied from templates, which are built once under the shallowest pointer of
their data.
-/
import SchemaForm.Layout.Context
import SchemaForm.Layout.Mapping
import SchemaForm.Pointer.Generic
import SchemaForm.Schema.Validators
import SchemaForm.Text.Title

namespace SchemaForm

namespace Generate

/-- Where in schema, data and layout a node is generated. -/
structure Request where
  layoutPointer : String := ""
  schemaPointer : String := ""
  dataPointer : String := ""
  /-- Set for array items. -/
  kind : Option ItemKind := none
  removable : Bool := true
  /-- Within a template: nodes get no id and data no entry. -/
  inTemplate : Bool := false
  /-- The data pointer above the one of a relative template. -/
  above : String := ""
deriving Repr

namespace Request

/-- The request for something within the node of a request. -/
def within (r : Request) (layoutPointer schemaPointer dataPointer : String) : Request :=
  { layoutPointer, schemaPointer, dataPointer, inTemplate := r.inTemplate, above := r.above }

/-- Whether the request is for the form as a whole. -/
def isRoot (r : Request) : Bool := r.dataPointer == "" && !r.inTemplate

/-- The data pointer from the root of the data. -/
def fullPointer (r : Request) : String := r.above ++ r.dataPointer

end Request

/-- A function that builds what a request asks for. -/
abbrev Builder := Request → Build (Mapped Node)

/-- The label that a control gets from its name when it has no title. -/
def withTitle (c : Control) : Control :=
  match c.title?, c.name.filter (!Text.isIndex ·) with
  | none, some name => c.setOption "title" (.str (Text.title name))
  | _, _ => c

/-- The type of the data that a schema describes. -/
def dataType? (schema : Json) : Option String :=
  (Schema.typeName? schema).or (if schema.has "$ref" then some "$ref" else none)

/-- The control for a schema of the given control type. -/
def controlFor (ctx : Setup) (r : Request) (schema : Json) (type : String) (id : Option Nat) :
    Control :=
  let layoutPointer := Pointer.genericLayout r.layoutPointer
  withTitle {
    id,
    type,
    name := (Pointer.last? r.dataPointer).filter (· ≠ Pointer.wildcard)
    dataPointer := some (ctx.generic r.dataPointer)
    dataType := dataType? schema
    layoutPointer := if layoutPointer = "" then Pointer.anyItem "" else layoutPointer
    options := ctx.optionsFor
      (if r.kind.isSome then [("removable", .bool r.removable)] else []) schema
    arrayItem := r.kind.isSome
    itemKind := r.kind
    widget := ctx.widget? type }

/-- The entry of a generated control in the data map. -/
def entryFor (r : Request) (schema : Json) (c : Control) (e : DataEntry) : DataEntry :=
  { e with
    schemaPointer := some r.schemaPointer,
    inputType := some c.type,
    disabled := c.flag "disabled" false,
    validators := Schema.validators schema }

/-! ## Objects -/

/-- The names of properties in the order that `ui:order` gives; a `*` there stands
for the names that it does not list, unless there is a property of that name. -/
def propertyNames (schema : Json) (properties : Members) : List String :=
  match (schema.get? "ui:order").bind Json.arr? with
  | none => Table.names properties
  | some entries =>
      let order := entries.filterMap Json.str?
      order.flatMap fun name =>
        if name == "*" && !Table.has properties "*" then
          (Table.names properties).filter fun key => !order.contains key
        else if Table.has properties name then [name]
        else []

/-- Marks the nodes of a required property. -/
def markRequired (required : Bool) (nodes : List Node) : Build (List Node) := do
  if required && !nodes.isEmpty then
    Build.noteRequired
    return nodes.map (·.modify (·.setOption "required" (.bool true)))
  else return nodes

/-- The nodes of one property. -/
def buildProperty (build : Builder) (r : Request) (schema : Json) (layoutPointer name : String) :
    Build (List Node) := do
  let required := Schema.isRequired schema (Pointer.child "/properties" name)
  let built ← build (r.within layoutPointer
    (Pointer.child (r.schemaPointer ++ "/properties") name) (Pointer.child r.dataPointer name))
  markRequired required built.toList

/-- The nodes of an object's properties. -/
def buildProperties (build : Builder) (r : Request) (schema : Json) (layoutPointer : String) :
    Build (List Node) := do
  match (schema.get? "properties").bind Json.obj? with
  | none => return []
  | some properties =>
      let childLayout := Pointer.anyItem (if r.isRoot then "" else layoutPointer ++ "/items")
      let nodes ←
        (propertyNames schema properties).mapM (buildProperty build r schema childLayout)
      return nodes.flatten

/-! ## Templates -/

/-- Builds the template of a name that is not known yet; the name is reserved
meanwhile, and released when nothing is built. -/
def ensureTemplate (build : Builder) (name : String) (relative : Bool) (r : Request) :
    Build Unit := do
  if (← get).templates.knows name then return
  Build.onTemplates (·.reserve name)
  match (← build r).toList.getLast? with
  | some node =>
      let node := if relative then node.modify ({ · with recursive := true }) else node
      Build.onTemplates (·.store name (Template.of node relative))
  | none => Build.onTemplates (·.remove name)

/-! ## Arrays -/

/-- Where the items of an array are laid out, and under which name. -/
structure ArraySite where
  /-- The data pointer of the array. -/
  array : String
  /-- The name of the item template. -/
  name : String
  /-- Whether the template is one built elsewhere in the data. -/
  relative : Bool
  /-- The layout pointer of the items. -/
  layout : String

/-- The site of an array's items. -/
def arraySite (ctx : Setup) (r : Request) (c : Control) : ArraySite :=
  let name := ctx.dataKey (Pointer.anyItem r.fullPointer)
  { array := r.dataPointer
    name
    relative := name != Pointer.anyItem (ctx.generic r.dataPointer)
    layout := Pointer.anyItem (c.layoutPointer ++ "/items") }

/-- The request for the template of an item. -/
def itemTemplate (r : Request) (site : ArraySite) (kind : ItemKind) (removable : Bool)
    (schemaPointer item : String) : Request :=
  { schemaPointer, removable,
    kind := some kind,
    inTemplate := true,
    layoutPointer := if site.relative then "" else site.layout,
    dataPointer := if site.relative then "" else item,
    above := if site.relative then r.above ++ item else "" }

/-- The name of the template of a fixed position. -/
def tupleName (site : ArraySite) (index : Nat) : String :=
  (Pointer.dropEnd? Pointer.wildcard site.name).getD site.name ++ Nat.repr index

/-- The node of a fixed position: copied from a template when it can be removed,
and built in place when it has to be there. -/
def buildTupleItem (build : Builder) (r : Request) (site : ArraySite) (bounds : ArrayBounds)
    (removable : Bool) (index : Nat) : Build (Option Node) := do
  let item := Pointer.item site.array index
  let schemaPointer := Pointer.item (r.schemaPointer ++ "/items") index
  if removable && bounds.minItems ≤ index then
    let name := tupleName site index
    ensureTemplate build name site.relative (itemTemplate r site .tuple true schemaPointer item)
    Build.instantiate name ⟨item, site.layout⟩
  else
    let request := { r.within site.layout schemaPointer item with
      kind := some .tuple, removable := false }
    return (← build request).toList.getLast?

/-- The nodes of the fixed positions. -/
def buildTuple (build : Builder) (r : Request) (site : ArraySite) (schema : Json)
    (bounds : ArrayBounds) (removable : Bool) : Build (List Node) := do
  match (schema.get? "items").bind Json.arr? with
  | none => return []
  | some tuple =>
      let nodes ← (List.range (min bounds.tupleItems tuple.length)).mapM
        (buildTupleItem build r site bounds removable)
      return nodes.filterMap id

/-- The keyword with the schema of an array's list positions. -/
def listKeyword? (schema : Json) : Option String :=
  match schema.get? "items" with
  | some (.arr _) =>
      if (schema.get? "additionalItems").any Json.isObj then some "additionalItems" else none
  | some (.obj _) => some "items"
  | _ => none

/-- The control that adds an item to an array. -/
def addControl (ctx : Setup) (array : Control) (name : String) (relative : Bool) (label : String)
    (bounds : ArrayBounds) (id : Nat) : Node :=
  .mk {
    id := some id
    type := "$ref"
    dataPointer := array.dataPointer.map Pointer.anyItem
    layoutPointer := Pointer.anyItem (array.layoutPointer ++ "/items")
    options := [
      ("listItems", Json.nat bounds.listItems),
      ("maxItems", Json.nat bounds.maxItems),
      ("minItems", Json.nat bounds.minItems),
      ("removable", .bool false),
      ("title", .str label),
      ("tupleItems", Json.nat bounds.tupleItems)]
    arrayItem := true
    itemKind := some .list
    recursive := relative
    reference := some name
    widget := ctx.widget? "$ref" } []

/-- Fills up with copies of the stored template until there are `count` items. -/
def fillItems (name : String) (site : Site) (count : Nat) (items : List Node) :
    Build (List Node) := do
  match (← get).templates.template? name with
  | some t => return items ++ (← Build.copies t site (count - items.length))
  | none => return items

/-- Tells the limits to a last item that is itself a reference. -/
def limitLast (bounds : ArrayBounds) (items : List Node) : List Node :=
  match items.getLast? with
  | some last =>
      if last.control.isReference then
        items.dropLast ++ [last.modify fun c =>
          (c.setOption "maxItems" (Json.nat bounds.maxItems)).setOption "minItems"
            (Json.nat bounds.minItems)]
      else items
  | none => items

/-- The label of the control that adds an item: the title of the item template,
else of the array, else the name of the array. -/
def addLabelFor (templates : Library) (name : String) (schema : Json) (array : String) : String :=
  let title := ((templates.template? name).bind (·.node.control.title?)).or
    ((schema.get? "title").bind Json.str?)
  Text.addLabel title (Pointer.last? array) none none

/-- Adds the control that adds an item, where there may be one more. -/
def withAddControl (ctx : Setup) (site : ArraySite) (schema : Json) (c : Control)
    (bounds : ArrayBounds) (items : List Node) : Build (List Node) := do
  if c.flag "addable" true && items.length < bounds.maxItems then
    let label := addLabelFor (← get).templates site.name schema site.array
    let id ← Build.newId
    return items ++ [addControl ctx c site.name site.relative label bounds id]
  else return limitLast bounds items

/-- The list items of an array. -/
def buildList (ctx : Setup) (build : Builder) (r : Request) (site : ArraySite) (schema : Json)
    (c : Control) (bounds : ArrayBounds) (keyword : String) (items : List Node) :
    Build (List Node) := do
  let item := Pointer.anyItem site.array
  let schemaPointer := ctx.schemaKey (r.schemaPointer ++ "/" ++ keyword)
  ensureTemplate build site.name site.relative
    (itemTemplate r site .list (c.flag "removable" true) schemaPointer item)
  let existing := if r.inTemplate then 0 else ctx.dataLength site.array
  let count := bounds.instanceCount .words existing
  let items ← fillItems site.name ⟨item, site.layout⟩ count items
  withAddControl ctx site schema c bounds items

/-- An array control with its items. -/
def buildArray (ctx : Setup) (build : Builder) (r : Request) (schema : Json) (c : Control) :
    Build Node := do
  let bounds := ArrayBounds.of .words schema c.options ctx.options.maxItemsCap
    (Schema.isRequired ctx.schema r.schemaPointer)
  let c := { c with options := bounds.writeOptions c.options }
  let site := arraySite ctx r c
  let items ← buildTuple build r site schema bounds (c.flag "removable" true)
  Build.note ((Pointer.listOfItem? site.name).getD site.name) (·.withBounds bounds)
  match listKeyword? schema with
  | none => return .mk c items
  | some keyword => return .mk c (← buildList ctx build r site schema c bounds keyword items)

/-! ## References -/

/-- The pointer of the schema that holds the place of a schema pointer. -/
def holderPointer (schemaPointer : String) : String :=
  let above := (Pointer.parent? schemaPointer).getD ""
  if Pointer.last? above = some "properties" then (Pointer.parent? above).getD "" else above

/-- The control of a reference. -/
def referenceControl (ctx : Setup) (r : Request) (c : Control) (name : String) : Control :=
  let holder := (ctx.resolved.schemaAt? (holderPointer r.schemaPointer)).getD .null
  let label := Text.addLabel ((Table.get? c.options "add").bind Json.str?) c.name
    ((holder.get? "title").bind Json.str?) (Pointer.beforeLast? r.dataPointer)
  let c := (c.setOption "removable" (.bool false)).setOption "title" (.str label)
  let c :=
    match (holder.get? "maxItems").filter Json.isNum with
    | some limit => c.setOption "maxItems" limit
    | none => c
  { c with recursive := true, reference := some name, widget := ctx.widget? "$ref" }

/-- A control that stands for the target of a reference, and the target's template. -/
def buildReference (ctx : Setup) (build : Builder) (r : Request) (c : Control) : Build Control := do
  let name := ctx.dataKey r.fullPointer
  let c := referenceControl ctx r c name
  ensureTemplate build name true {
    schemaPointer := ctx.schemaKey r.schemaPointer
    kind := if c.arrayItem then c.itemKind else none
    inTemplate := true
    above := r.fullPointer }
  return c

/-! ## Nodes -/

/-- Whether a schema says enough to make a control of it. -/
def isDescribed (schema : Json) : Bool :=
  schema.has "type" || schema.has "$ref" || schema.has "x-schema-form"

/-- What becomes of a control, by the type of its data. -/
def complete (ctx : Setup) (build : Builder) (r : Request) (schema : Json) (c : Control) :
    Build (Mapped Node) := do
  match c.dataType with
  | some "object" =>
      let children ← buildProperties build r schema c.layoutPointer
      return if r.isRoot then .many children else .one (.mk c children)
  | some "array" =>
      if c.type.startsWith "checkboxes" then
        match (schema.get? "items").filter Json.isObj with
        | some items => return .one (.mk { c with options := ctx.optionsFor c.options items } [])
        | none => return .one (.mk c [])
      else return .one (← buildArray ctx build r schema c)
  | some "$ref" => return .one (.mk (← buildReference ctx build r c) [])
  | _ => return .one (.mk c [])

/-- The node of a schema, given a function that builds what is within it. -/
def buildSchema (ctx : Setup) (build : Builder) (r : Request) (schema : Json) (type : String) :
    Build (Mapped Node) := do
  let id ← if r.inTemplate then pure none else some <$> Build.newId
  let c := controlFor ctx r schema type id
  if r.dataPointer ≠ "" && !r.inTemplate then
    Build.note (ctx.dataKey (c.dataPointer.getD "")) (entryFor r schema c)
  complete ctx build r schema c

/-- One request, given a function that builds what is within it. -/
def buildOne (ctx : Setup) (build : Builder) (r : Request) : Build (Mapped Node) := do
  match (ctx.resolved.schemaAt? r.schemaPointer).filter isDescribed with
  | none => return .drop
  | some schema =>
      match Schema.controlType? schema [] with
      | none => return .drop
      | some type => buildSchema ctx build r schema type

/-- Builds what a request asks for, nesting at most as deep as the number says. -/
def buildNode (ctx : Setup) : Nat → Builder
  | 0, _ => failure
  | fuel + 1, r => buildOne ctx (buildNode ctx fuel) r

/-- How deep requests may nest.  Between two templates requests go down the
schema, and a template is built once for each name. -/
def depthLimit (ctx : Setup) : Nat :=
  let places := ctx.schema.size + Json.sizeMembers ctx.resolved.library + 2
  places * places

/-- Builds what a request asks for. -/
def run (ctx : Setup) : Builder := buildNode ctx (depthLimit ctx)

/-- The nodes of the whole schema: those of its properties for an object, and one
node otherwise. -/
def wholeSchema (ctx : Setup) (layoutPointer : String) : Build (Mapped Node) :=
  run ctx { layoutPointer }

/-- Generates what a bound control contains; the control keeps what it has. -/
def expandBound (ctx : Setup) (schemaPointer : String) (c : Control) : Build Node := do
  match ctx.resolved.schemaAt? schemaPointer with
  | none => return .mk c []
  | some schema =>
      let r : Request :=
        { schemaPointer, layoutPointer := c.layoutPointer, dataPointer := c.dataPointer.getD "" }
      match c.dataType with
      | some "object" =>
          if r.dataPointer = "" then return .mk c []
          else return .mk c (← buildProperties (run ctx) r schema c.layoutPointer)
      | some "array" =>
          if c.type.startsWith "checkboxes" then return .mk c []
          else buildArray ctx (run ctx) r schema c
      | some "$ref" => return .mk (← buildReference ctx (run ctx) r c) []
      | _ => return .mk c []

end Generate

end SchemaForm
