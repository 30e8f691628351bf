/-
Requests that come up.

A layout is generated from one request, and every other one is made for a request that
came up before: for a property of an object, for a position of an array, or for the
template of an item or of the target of a reference.  `Comes ctx S r` says that `r` comes
up when the requests in `S` are made.

What holds of the starting requests and of the steps holds of all of them; so all are
laid out at a depth (`Comes.levelled`), and have data pointers of one kind
(`Comes.dataPointer`).

The items of an array are copied from templates with names (`Takes`), and a template is
built for the first request that asks for its name (`Asks`).  Where the name is the array's
own, it stands for the place of the item (`Takes.generic_item`), and the template is built
there (`Asks.home`).
-/
import SchemaForm.Proofs.Layout.Run
import SchemaForm.Proofs.Pointer.Levels
import SchemaForm.Proofs.Pointer.Segments

namespace SchemaForm

namespace Generate

variable {ctx : Setup} {S : Request → Prop} {r : Request} {c : Control}

/-- The layout pointer of the control of a request. -/
def Request.layout (r : Request) : String :=
  if Pointer.genericLayout r.layoutPointer = "" then Pointer.anyItem ""
  else Pointer.genericLayout r.layoutPointer

theorem withTitle_dataType (c : Control) : (withTitle c).dataType = c.dataType := by
  unfold withTitle
  split <;> rfl

theorem withTitle_layoutPointer (c : Control) : (withTitle c).layoutPointer = c.layoutPointer := by
  unfold withTitle
  split <;> rfl

theorem withTitle_dataPointer (c : Control) : (withTitle c).dataPointer = c.dataPointer := by
  unfold withTitle
  split <;> rfl

theorem controlFor_layoutPointer (ctx : Setup) (r : Request) (schema : Json) (type : String)
    (id : Option Nat) : (controlFor ctx r schema type id).layoutPointer = r.layout := by
  rw [controlFor, withTitle_layoutPointer]
  rfl

theorem controlFor_dataPointer (ctx : Setup) (r : Request) (schema : Json) (type : String)
    (id : Option Nat) :
    (controlFor ctx r schema type id).dataPointer = some (ctx.generic r.dataPointer) := by
  rw [controlFor, withTitle_dataPointer]

theorem controlFor_dataType (ctx : Setup) (r : Request) (schema : Json) (type : String)
    (id : Option Nat) : (controlFor ctx r schema type id).dataType = dataType? schema := by
  rw [controlFor, withTitle_dataType]

theorem withTitle_reference (c : Control) : (withTitle c).reference = c.reference := by
  unfold withTitle
  split <;> rfl

theorem controlFor_reference (ctx : Setup) (r : Request) (schema : Json) (type : String)
    (id : Option Nat) : (controlFor ctx r schema type id).reference = none := by
  rw [controlFor, withTitle_reference]

theorem get?_withTitle (c : Control) {key : String} (hkey : key ≠ "title") :
    Table.get? (withTitle c).options key = Table.get? c.options key := by
  unfold withTitle
  split
  · rw [Control.setOption, Table.get?_insert, if_neg hkey.symm]
  · rfl

theorem controlFor_type (ctx : Setup) (r : Request) (schema : Json) (type : String)
    (id : Option Nat) : (controlFor ctx r schema type id).type = type := by
  rw [controlFor, withTitle]
  split <;> rfl

/-- The site of the items of the array that is requested. -/
def itemSite (ctx : Setup) (r : Request) : ArraySite :=
  arraySite ctx r { layoutPointer := r.layout }

theorem arraySite_eq (h : c.layoutPointer = r.layout) : arraySite ctx r c = itemSite ctx r := by
  simp only [itemSite, arraySite, h]

@[simp] theorem propertyRequest_inTemplate (r : Request) (layoutPointer name : String) :
    (propertyRequest r layoutPointer name).inTemplate = r.inTemplate := by
  unfold propertyRequest Request.within
  rfl

@[simp] theorem tupleRequest_inTemplate (r : Request) (site : ArraySite) (index : Nat) :
    (tupleRequest r site index).inTemplate = r.inTemplate := by
  unfold tupleRequest Request.within
  rfl

/-- The schema of the request is there, and describes data of the type. -/
structure Request.Reads (ctx : Setup) (r : Request) (type : String) (schema : Json) : Prop where
  found : ctx.resolved.schemaAt? r.schemaPointer = some schema
  dataType : dataType? schema = some type

/-- The request comes up when those in `S` are made. -/
inductive Comes (ctx : Setup) (S : Request → Prop) : Request → Prop
  | start {r : Request} : S r → Comes ctx S r
  | property {r : Request} {schema : Json} {properties : Members} {name : String} :
      Comes ctx S r → r.Reads ctx "object" schema →
      (schema.get? "properties").bind Json.obj? = some properties →
      name ∈ propertyNames schema properties →
      Comes ctx S (propertyRequest r (childLayout r r.layout) name)
  | fixed {r : Request} {schema : Json} {tuple : List Json} {index : Nat} :
      Comes ctx S r → r.Reads ctx "array" schema →
      (schema.get? "items").bind Json.arr? = some tuple → index < tuple.length →
      Comes ctx S (tupleRequest r (itemSite ctx r) index)
  | tuple {r : Request} {schema : Json} {tuple : List Json} {index : Nat} :
      Comes ctx S r → r.Reads ctx "array" schema →
      (schema.get? "items").bind Json.arr? = some tuple → index < tuple.length →
      Comes ctx S (itemTemplate r (itemSite ctx r) .tuple true
        (Pointer.item (r.schemaPointer ++ "/items") index) (Pointer.item r.dataPointer index))
  | list {r : Request} {schema : Json} {keyword : String} (removable : Bool) :
      Comes ctx S r → r.Reads ctx "array" schema → listKeyword? schema = some keyword →
      Comes ctx S (itemTemplate r (itemSite ctx r) .list removable
        (ctx.schemaKey (r.schemaPointer ++ "/" ++ keyword)) (Pointer.anyItem r.dataPointer))
  | target {r : Request} {schema : Json} (c : Control) :
      Comes ctx S r → r.Reads ctx "$ref" schema → Comes ctx S (targetRequest ctx r c)

theorem Comes.mono {S' : Request → Prop} (hS : ∀ r, S r → S' r) (h : Comes ctx S r) :
    Comes ctx S' r := by
  induction h with
  | start h => exact .start (hS _ h)
  | property _ hreads hproperties hname ih => exact .property ih hreads hproperties hname
  | fixed _ hreads htuple hindex ih => exact .fixed ih hreads htuple hindex
  | tuple _ hreads htuple hindex ih => exact .tuple ih hreads htuple hindex
  | list removable _ hreads hkeyword ih => exact .list removable ih hreads hkeyword
  | target c _ hreads ih => exact .target c ih hreads

/-! ## Templates of names -/

/-- The item of the requested array at the data pointer is copied from the template of the
name. -/
inductive Takes (ctx : Setup) (r : Request) : String → String → Prop
  | tuple {schema : Json} {tuple : List Json} {index : Nat} : r.Reads ctx "array" schema →
      (schema.get? "items").bind Json.arr? = some tuple → index < tuple.length →
      Takes ctx r (tupleName (itemSite ctx r) index) (Pointer.item r.dataPointer index)
  | list {schema : Json} {keyword : String} : r.Reads ctx "array" schema →
      listKeyword? schema = some keyword →
      Takes ctx r (itemSite ctx r).name (Pointer.anyItem r.dataPointer)

/-- The request is the one for the template of the name, which one that comes up asks for:
for the item of its array, or for the target of its reference.  The template is relative
or not. -/
inductive TemplateFor (ctx : Setup) (S : Request → Prop) : String → Bool → Request → Prop
  | item {r : Request} {name item : String} {kind : ItemKind} {removable : Bool}
      (schemaPointer : String) : Comes ctx S r → Takes ctx r name item →
      (kind = .tuple → removable = true) →
      TemplateFor ctx S name (itemSite ctx r).relative
        (itemTemplate r (itemSite ctx r) kind removable schemaPointer item)
  | target {r : Request} {schema : Json} (c : Control) : Comes ctx S r →
      r.Reads ctx "$ref" schema →
      TemplateFor ctx S (ctx.dataKey r.fullPointer) true (targetRequest ctx r c)

/-- An item is one segment below its array. -/
theorem Takes.item {name item : String} (h : Takes ctx r name item) :
    ∃ segment, item = Pointer.child r.dataPointer segment := by
  cases h with
  | tuple => exact ⟨_, Pointer.item_eq_child _ _⟩
  | list => exact ⟨_, Pointer.anyItem_eq_child _⟩

/-- The array has a name of its own for its items. -/
theorem itemSite_name (h : (itemSite ctx r).relative = false) :
    (itemSite ctx r).name = Pointer.anyItem (ctx.generic r.dataPointer) :=
  bne_eq_false_iff_eq.mp h

/-- A name of the array's own stands for the place of the item. -/
theorem Takes.own {name item : String} (h : Takes ctx r name item)
    (hown : (itemSite ctx r).relative = false) :
    ∃ segment, name = Pointer.child (ctx.generic r.dataPointer) segment ∧
      item = Pointer.child r.dataPointer segment := by
  have hname := itemSite_name hown
  cases h with
  | @tuple schema tuple index =>
      refine ⟨Nat.repr index, ?_, Pointer.item_eq_child _ _⟩
      rw [tupleName, hname, Pointer.dropEnd?_anyItem, Option.getD_some, ← Pointer.item_eq_child]
      rfl
  | list => exact ⟨_, hname.trans (Pointer.anyItem_eq_child _), Pointer.anyItem_eq_child _⟩

theorem Takes.generic_item {name item : String} (h : Takes ctx r name item)
    (hown : (itemSite ctx r).relative = false) : ctx.generic item = ctx.generic name := by
  obtain ⟨segment, rfl, rfl⟩ := h.own hown
  exact (Pointer.toGeneric_child _ _ _).symm

namespace TemplateFor

variable {name : String} {relative : Bool}

theorem inTemplate (h : TemplateFor ctx S name relative r) : r.inTemplate = true := by
  cases h <;> rfl

/-- A relative template starts where it is put. -/
theorem start (h : TemplateFor ctx S name relative r) (hrelative : relative = true) :
    r.dataPointer = "" ∧ r.layoutPointer = "" := by
  cases h with
  | item =>
      simp only [itemTemplate, hrelative, if_true]
      exact ⟨trivial, trivial⟩
  | target => exact ⟨rfl, rfl⟩

/-- The template of a fixed position is one of an item that may be removed. -/
theorem removable (h : TemplateFor ctx S name relative r) (hkind : r.kind = some .tuple) :
    r.removable = true := by
  cases h with
  | item _ _ _ hremovable => exact hremovable (Option.some.inj hkind)
  | target => rfl

/-- An absolute template is built at the item of an array that has a name of its own
for it. -/
theorem home {r' : Request} (h : TemplateFor ctx S name relative r')
    (habsolute : relative = false) :
    ∃ r item, Comes ctx S r ∧ Takes ctx r name item ∧ (itemSite ctx r).relative = false ∧
      r'.dataPointer = item ∧ r'.layoutPointer = (itemSite ctx r).layout := by
  cases h with
  | @item r name item kind removable schemaPointer hcomes htakes _ =>
      refine ⟨r, item, hcomes, htakes, habsolute, ?_, ?_⟩
      all_goals
        rw [itemTemplate, habsolute]
        rfl
  | target => cases habsolute

end TemplateFor

/-! ## The form as a whole -/

theorem isRoot_template (h : r.inTemplate = true) : r.isRoot = false := by
  rw [Request.isRoot, h, Bool.not_true, Bool.and_false]

/-! ## Places of requests -/

theorem layout_of_level {n : Nat} (h : r.layoutPointer = Pointer.level n) :
    r.layout = Pointer.level n := by
  have hne : Pointer.level n ≠ "" := by
    intro he
    have hlength := Pointer.length_level n
    rw [he, String.length_empty] at hlength
    omega
  rw [Request.layout, h, Pointer.genericLayout_level, if_neg hne]

theorem layout_of_empty (h : r.layoutPointer = "") : r.layout = Pointer.level 0 := by
  rw [Request.layout, h, Pointer.genericLayout_empty, if_pos rfl, Pointer.level]

/-- The request is laid out at a depth. -/
def Request.Levelled (r : Request) : Prop := ∃ n, r.layout = Pointer.level n

theorem childLayout_level {n : Nat} (h : r.layout = Pointer.level n) :
    ∃ m, childLayout r r.layout = Pointer.level m := by
  unfold childLayout
  cases r.isRoot with
  | true => exact ⟨0, rfl⟩
  | false => exact ⟨n + 1, by rw [h]; rfl⟩

theorem itemSite_layout (ctx : Setup) {n : Nat} (h : r.layout = Pointer.level n) :
    (itemSite ctx r).layout = Pointer.level (n + 1) := by
  simp only [itemSite, arraySite, h]
  rfl

theorem Request.Levelled.itemTemplate (hr : r.Levelled) (kind : ItemKind) (removable : Bool)
    (schemaPointer item : String) :
    (itemTemplate r (itemSite ctx r) kind removable schemaPointer item).Levelled := by
  obtain ⟨n, hn⟩ := hr
  unfold Generate.itemTemplate
  cases (itemSite ctx r).relative with
  | true => exact ⟨0, layout_of_empty rfl⟩
  | false => exact ⟨n + 1, layout_of_level (itemSite_layout ctx hn)⟩

/-- All requests that come up are laid out at a depth when the starting ones are. -/
theorem Comes.levelled (hS : ∀ r, S r → r.Levelled) (h : Comes ctx S r) : r.Levelled := by
  induction h with
  | start h => exact hS _ h
  | property _ _ _ _ ih =>
      obtain ⟨n, hn⟩ := ih
      obtain ⟨m, hm⟩ := childLayout_level hn
      exact ⟨m, layout_of_level hm⟩
  | fixed _ _ _ _ ih =>
      obtain ⟨n, hn⟩ := ih
      exact ⟨n + 1, layout_of_level (itemSite_layout ctx hn)⟩
  | tuple _ _ _ _ ih => exact ih.itemTemplate _ _ _ _
  | list _ _ _ _ ih => exact ih.itemTemplate _ _ _ _
  | target c _ _ => exact ⟨0, layout_of_empty rfl⟩

/-- A kind of data pointers that requests lead to from one another. -/
structure Passes (ctx : Setup) (W : String → Prop) : Prop where
  empty : W ""
  generic : ∀ a, W a → W (ctx.generic a)
  child : ∀ a name, W a → W (Pointer.child a name)
  item : ∀ a index, W a → W (Pointer.item a index)
  anyItem : ∀ a, W a → W (Pointer.anyItem a)

theorem Passes.itemTemplate {W : String → Prop} (hW : Passes ctx W) {item : String}
    (hitem : W item) (kind : ItemKind) (removable : Bool) (schemaPointer : String) :
    W (itemTemplate r (itemSite ctx r) kind removable schemaPointer item).dataPointer := by
  unfold Generate.itemTemplate
  cases (itemSite ctx r).relative with
  | true => exact hW.empty
  | false => exact hitem

/-- All requests that come up have data pointers of a kind when the starting ones have. -/
theorem Comes.dataPointer {W : String → Prop} (hW : Passes ctx W) (hS : ∀ r, S r → W r.dataPointer)
    (h : Comes ctx S r) : W r.dataPointer := by
  induction h with
  | start h => exact hS _ h
  | property _ _ _ _ ih => exact hW.child _ _ ih
  | fixed _ _ _ _ ih => exact hW.item _ _ ih
  | tuple _ _ _ _ ih => exact hW.itemTemplate (hW.item _ _ ih) _ _ _
  | list _ _ _ _ ih => exact hW.itemTemplate (hW.anyItem _ ih) _ _ _
  | target c _ _ => exact hW.empty

end Generate

end SchemaForm
