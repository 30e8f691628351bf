/-
Lists among the properties of a form.

A property that is a list (`Setup.HasList`) is built from its schema with as many items as
its limits, its options and its data count (`Setup.listCount`), wherever it is asked for, if
the template of its items is stored in the end and is no reference
(`Generate.shown_list`, `Generate.shown_property`).
-/
import SchemaForm.Proofs.Layout.Filling
import SchemaForm.Proofs.Layout.Limits
import SchemaForm.Proofs.Layout.Stored
import SchemaForm.Proofs.Layout.TopLevel
import SchemaForm.Proofs.Pointer.Names

namespace SchemaForm

open Build

/-! ## Items that are laid out -/

namespace Node

variable {n : Node} {ns : List Node} {f : Control → Control}

/-- The nodes are items themselves, and do not stand for ones to be added. -/
def Plain (ns : List Node) : Prop := ∀ n ∈ ns, n.control.isReference = false

/-- The number of items that are laid out in a node. -/
def shown (n : Node) : Nat := n.items.countP fun item => !item.control.isReference

theorem countP_plain (h : Plain ns) : (ns.countP fun n => !n.control.isReference) = ns.length := by
  rw [List.countP_eq_length]
  intro n hn
  rw [h n hn]
  rfl

@[simp] theorem shown_modify (n : Node) (f : Control → Control) : (n.modify f).shown = n.shown := by
  cases n
  rfl

theorem shown_map (hf : ∀ c, (f c).isReference = c.isReference) (n : Node) :
    (n.map f).shown = n.shown := by
  cases n with
  | mk c items =>
      simp only [shown, map, Node.items, mapAll_eq_map, List.countP_map]
      refine List.countP_congr fun item _ => ?_
      rw [Function.comp_apply, control_map, hf]

end Node

theorem Template.place_control (t : Template) (site : Site) (last : Nat) :
    ∃ id, (t.place site last).1.control = t.placedControl site id t.node.control := by
  obtain ⟨⟨c, items⟩, relative⟩ := t
  exact ⟨_, rfl⟩

theorem Template.place_isReference (t : Template) (site : Site) (last : Nat) :
    (t.place site last).1.control.isReference = t.node.control.isReference := by
  obtain ⟨id, hid⟩ := t.place_control site last
  rw [hid]
  unfold Template.placedControl
  split <;> rfl

theorem Build.plain_copies {t : Template} {site : Site} {count : Nat} {made : List Node}
    {p q : Progress} (ht : t.node.control.isReference = false)
    (h : (copies t site count).Runs p made q) : Node.Plain made := by
  intro n hn
  obtain ⟨last, rfl⟩ := (runs_copies h).2 n hn
  rw [t.place_isReference, ht]

namespace Generate

variable {ctx : Setup} {build : Builder} {r : Request} {p q : Progress} {site : ArraySite}
  {schema : Json} {c : Control} {bounds : ArrayBounds} {items made : List Node} {n : Node}
  {t : Template}

/-- What closes an array is no item. -/
theorem Closes.shown (h : Closes ctx site c bounds items made) (hitems : Node.Plain items)
    (d : Control) : (Node.mk d made).shown = items.length := by
  unfold Closes at h
  unfold Node.shown Node.items
  split at h
  · obtain ⟨label, id, rfl⟩ := h
    rw [List.countP_append, Node.countP_plain hitems]
    rfl
  · have hkept : limitLast bounds items = items := by
      unfold limitLast
      split
      · next last hlast => rw [hitems last (List.mem_of_getLast? hlast), if_neg Bool.false_ne_true]
      · rfl
    rw [h, hkept, Node.countP_plain hitems]

/-- A list without fixed positions shows as many items as are counted, if the template of its
items is stored in the end and is no reference. -/
theorem shown_buildArray {members : Members} (hitems : schema.get? "items" = some (.obj members))
    (h : (buildArray ctx build r schema c).Runs p n q)
    (ht : q.templates.template? (ctx.dataKey (Pointer.anyItem r.fullPointer)) = some t)
    (hplain : t.node.control.isReference = false) :
    n.shown = (boundsFor ctx r schema c).instanceCount .words (existingValues ctx r) := by
  obtain ⟨site, fixed, made, s, hsite, htuple, rfl, s', rfl, h⟩ := runs_buildArray h
  have hkeyword : listKeyword? schema = some "items" := by rw [listKeyword?, hitems]
  obtain rfl : fixed = [] := by
    rcases runs_buildTuple htuple with ⟨hnil, -⟩ | ⟨tuple, parts, htuple, -, -⟩
    · exact hnil
    · rw [hitems] at htuple
      cases htuple
  rcases h with ⟨hnone, -, -⟩ | ⟨keyword, -, hlist⟩
  · exact absurd (hkeyword.symm.trans hnone) (Option.some_ne_none _)
  simp only [buildList, runs_bind] at hlist
  obtain ⟨u, s₁, -, filled, s₂, hfill, hadd⟩ := hlist
  obtain ⟨hkept, hlength⟩ := length_fillItems hfill
  obtain ⟨hkept', hcloses⟩ := withAddControl_closes hadd
  have hstored : s₁.templates.template? site.name = some t := by
    rw [← hkept, ← hkept', hsite]
    exact ht
  have hfilled : Node.Plain filled := by
    rcases runs_fillItems hfill with ⟨rfl, -⟩ | ⟨t', more, ht', hcopies, rfl⟩
    · exact fun n hn => absurd hn List.not_mem_nil
    · obtain rfl := Option.some.inj (hstored.symm.trans ht')
      exact plain_copies hplain hcopies
  rw [hcloses.shown hfilled, hlength, hstored, Option.isSome_some, if_pos rfl, List.length_nil,
    Nat.zero_max, hsite]
  rfl

/-- The template of a list's items is known in the end if their schema says enough. -/
theorem knows_buildArray {B : Prop} (hb : Serves ctx B build) {members : Members}
    (hitems : schema.get? "items" = some (.obj members))
    (hspeaks : Speaks ctx (ctx.schemaKey (r.schemaPointer ++ "/items")))
    (h : (buildArray ctx build r schema c).Runs p n q) :
    q.templates.knows (ctx.dataKey (Pointer.anyItem r.fullPointer)) = true := by
  obtain ⟨site, fixed, made, s, hsite, -, rfl, s', rfl, h⟩ := runs_buildArray h
  have hkeyword : listKeyword? schema = some "items" := by rw [listKeyword?, hitems]
  rcases h with ⟨hnone, -, -⟩ | ⟨keyword, hk, hlist⟩
  · exact absurd (hkeyword.symm.trans hnone) (Option.some_ne_none _)
  obtain rfl := Option.some.inj (hk.symm.trans hkeyword)
  obtain ⟨s₁, s₂, filled, count, u, he, hfill, hadd⟩ := runs_buildList hlist
  have hname : site.name = ctx.dataKey (Pointer.anyItem r.fullPointer) := by
    rw [hsite]
    rfl
  rw [(withAddControl_closes hadd).1, (length_fillItems hfill).1, ← hname]
  rcases runs_ensureTemplate he with ⟨hknown, rfl⟩ | ⟨-, mapped, s₃, hbuilt, rfl⟩
  · exact hknown
  · have hpointer : r.schemaPointer ++ "/items" = r.schemaPointer ++ "/" ++ "items" := by
      rw [String.append_assoc]
      rfl
    rw [hpointer] at hspeaks
    have hne := hb.speaks hbuilt (isRoot_template rfl) hspeaks
    unfold settled
    cases hlast : mapped.toList.getLast? with
    | none => exact absurd (List.getLast?_eq_none_iff.mp hlast) hne
    | some n => exact knows_store_self _ _ _

/-! ## Schemas of lists -/

/-- The schema is one of an array that is laid out as its items. -/
def IsList (array : Json) : Prop :=
  Schema.typeName? array = some "array" ∧
    ∃ type, Schema.controlType? array [] = some type ∧ type.startsWith "checkboxes" = false

variable {array : Json} {mapped : Mapped Node}

theorem dataType?_of_typeName {type : String} (h : Schema.typeName? schema = some type) :
    dataType? schema = some type := by
  rw [dataType?, h, Option.some_or]

theorem runs_buildOne_list (hschema : ctx.resolved.schemaAt? r.schemaPointer = some array)
    (hlist : IsList array) (h : (buildOne ctx build r).Runs p mapped q) :
    ∃ type id s n, (buildArray ctx build r array (controlFor ctx r array type id)).Runs s n q ∧
      mapped = .one n := by
  obtain ⟨hname, type, htype, hboxes⟩ := hlist
  simp only [buildOne, hschema, Option.filter_some, isDescribed_of_typeName hname, if_true,
    htype] at h
  obtain ⟨id, s, -, h⟩ := runs_buildSchema h
  have harray : (controlFor ctx r array type id).dataType = some "array" := by
    rw [controlFor_dataType, dataType?_of_typeName hname]
  simp only [complete, harray, controlFor_type, hboxes, Bool.false_eq_true, if_false, runs_bind,
    runs_pure] at h
  obtain ⟨n, _, hn, rfl, rfl⟩ := h
  exact ⟨type, id, _, n, hn, rfl⟩

end Generate

/-! ## Lists among the properties of the form -/

namespace Setup

/-- The number of items of a list of the form for the data that there are. -/
def listCount (s : Setup) (name : String) (array : Json) : Nat :=
  ArrayBounds.listCount array (s.optionsFor [] array) s.options.maxItemsCap
    (Schema.isRequired s.schema (Pointer.child "/properties" name))
    (s.dataLength (Pointer.child "" name))

/-- The place that the items of a list are built at. -/
def itemPlace (s : Setup) (name : String) : String :=
  s.dataKey (Pointer.anyItem (Pointer.child "" name))

/-- A list that is a property of the form, with items that get controls, which may be those of
another place that they refer to. -/
structure HasList (s : Setup) (name : String) (array : Json) : Prop where
  plain : Pointer.IsPlain name
  object : Schema.typeName? s.schema = some "object"
  property : ∃ properties, (s.schema.get? "properties").bind Json.obj? = some properties ∧
    Table.get? properties name = some array ∧ name ∈ Generate.propertyNames s.schema properties
  list : Generate.IsList array
  items : ∃ members, array.get? "items" = some (.obj members)
  place : s.dataKey (Pointer.child "" name) = Pointer.child "" name
  itemPlace : s.dataKey (s.generic (s.itemPlace name)) = s.itemPlace name
  itemSpeaks : Generate.Speaks s (s.schemaKey (Pointer.child "/properties" name ++ "/items"))
  item : ∃ pointer schema type, Schema.pointerOfData? s.schema (s.itemPlace name) = some pointer ∧
    s.resolved.schemaAt? pointer = some schema ∧ Schema.controlType? schema [] = some type ∧
    type ≠ "$ref"

end Setup

namespace Setup.HasList

open Generate

variable {s : Setup} {name : String} {array : Json}

section

variable (h : s.HasList name array)

include h

theorem schemaAt? : s.resolved.schemaAt? (Pointer.child "/properties" name) = some array := by
  obtain ⟨properties, hproperties, hget, -⟩ := h.property
  rw [Pointer.child_properties]
  exact schemaAt?_of_field (.property .root hproperties hget)

/-- The place of the list leads to its schema. -/
theorem pointerOfData? : Schema.pointerOfData? s.schema (Pointer.child "" name) =
    some (Pointer.child "/properties" name) := by
  obtain ⟨properties, hproperties, hget, -⟩ := h.property
  exact h.plain.pointerOfData? hproperties hget

/-- A list has no fixed positions. -/
theorem tupleLength : ArrayBounds.tupleLength array = 0 := by
  obtain ⟨members, hitems⟩ := h.items
  rw [ArrayBounds.tupleLength, hitems]
  rfl

end

/-- A list whose items are built at their own place, if their schema gives a control. -/
theorem of_own {properties members : Members} {type : String} (hplain : Pointer.IsPlain name)
    (hobject : Schema.typeName? s.schema = some "object")
    (hproperties : (s.schema.get? "properties").bind Json.obj? = some properties)
    (hget : Table.get? properties name = some array)
    (hname : name ∈ propertyNames s.schema properties) (hlist : IsList array)
    (hitems : array.get? "items" = some (.obj members)) (hdescribed : isDescribed (.obj members))
    (htype : Schema.controlType? (.obj members) [] = some type) (hne : type ≠ "$ref")
    (hplace : s.dataKey (Pointer.child "" name) = Pointer.child "" name)
    (hitem : s.itemPlace name = Pointer.anyItem (Pointer.child "" name))
    (hschema : s.schemaKey (Pointer.child "/properties" name ++ "/items") =
      Pointer.child "/properties" name ++ "/items") : s.HasList name array := by
  have hat : s.resolved.schemaAt? (Pointer.child "/properties" name ++ "/items") =
      some (.obj members) := by
    rw [Pointer.child_properties, Pointer.ofSegments_items]
    exact schemaAt?_of_field (.items (.property .root hproperties hget) hitems)
  refine ⟨hplain, hobject, ⟨properties, hproperties, hget, hname⟩, hlist, ⟨members, hitems⟩,
    hplace, ?_, ?_, Pointer.child "/properties" name ++ "/items", .obj members, type, ?_, hat,
    htype, hne⟩
  · rw [hitem, Setup.generic, hplain.toGeneric_anyItem]
    exact hitem
  · rw [hschema]
    exact ⟨.obj members, type, hat, hdescribed, htype⟩
  · have hlocated : Schema.locateFrom? s.schema [name, Pointer.wildcard] =
        some (.declared ["properties", name, "items"] (.obj members)) :=
      Schema.locateFrom?_concat (hplain.located hproperties hget) (Schema.stepInto?_items hitems)
    rw [hitem, Schema.pointerOfData?, Schema.locate?, Pointer.anyItem_child_root,
      Pointer.segments?_ofSegments, Option.bind_some, hlocated]
    refine congrArg some ?_
    rw [Pointer.child_properties, Pointer.ofSegments_items]
    rfl

end Setup.HasList

namespace Generate

variable {ctx : Setup} {build : Builder} {r : Request} {p q : Progress} {name : String}
  {array : Json} {n : Node} {l : Library} {made : List Node}

theorem propertyRequest_fullPointer (layoutPointer name : String) :
    (propertyRequest {} layoutPointer name).fullPointer = Pointer.child "" name :=
  String.empty_append

/-- What is known when a template has been built is stored in the end. -/
theorem stored_of_known (hknown : p.templates.knows name = true) (hl : p.templates.Extends l)
    (hnone : ∀ name, (name, none) ∉ l) :
    ∃ t, p.templates.template? name = some t ∧ l.template? name = some t := by
  obtain ⟨entry, hentry⟩ := Option.isSome_iff_exists.mp hknown
  have hlater := hl name entry hentry
  cases entry with
  | none => exact absurd (Table.mem_of_get? hlater) (hnone name)
  | some t => exact ⟨t, Library.template?_eq_some.mpr hentry, Library.template?_eq_some.mpr hlater⟩

/-- A list that is built for a request of the form has as many items as are counted. -/
theorem shown_list (h : ctx.HasList name array) (hb : Serves ctx False build) {c : Control}
    (hschema : r.schemaPointer = Pointer.child "/properties" name)
    (hpointer : r.fullPointer = Pointer.child "" name)
    (hrun : (buildArray ctx build r array c).Runs p n q) (hl : q.templates.Extends l)
    (hnone : ∀ name, (name, none) ∉ l)
    (hfiled : ∀ t, l.template? (ctx.itemPlace name) = some t →
      t.node.control.isReference = false) :
    n.shown = (boundsFor ctx r array c).instanceCount .words (existingValues ctx r) := by
  obtain ⟨members, hitems⟩ := h.items
  have hspeaks := h.itemSpeaks
  rw [← hschema] at hspeaks
  have hname : ctx.dataKey (Pointer.anyItem r.fullPointer) = ctx.itemPlace name := by
    rw [hpointer, Setup.itemPlace]
  have hknown := knows_buildArray hb hitems hspeaks hrun
  rw [hname] at hknown
  obtain ⟨t, ht, hlater⟩ := stored_of_known hknown hl hnone
  rw [← hname] at ht
  exact shown_buildArray hitems hrun ht (hfiled t hlater)

/-- The property is laid out as an array. -/
theorem runs_listProperty (h : ctx.HasList name array) {fuel : Nat}
    (hrun : (buildProperty (buildNode ctx fuel) {} ctx.schema (Pointer.anyItem "") name).Runs
      p made q) :
    ∃ fuel' type id s n m s', (buildArray ctx (buildNode ctx fuel')
        (propertyRequest {} (Pointer.anyItem "") name) array
        (controlFor ctx (propertyRequest {} (Pointer.anyItem "") name) array type id)).Runs s n s' ∧
      made = [m] ∧ m.shown = n.shown ∧ q.templates = s'.templates := by
  obtain ⟨mapped, s, required, hbuilt, hmark⟩ := runs_buildProperty hrun
  cases fuel with
  | zero => exact absurd hbuilt not_runs_failure
  | succ fuel =>
      have hschema : ctx.resolved.schemaAt?
          (propertyRequest {} (Pointer.anyItem "") name).schemaPointer = some array := by
        rw [propertyRequest_root]
        exact h.schemaAt?
      obtain ⟨type, id, s', n, harray, rfl⟩ := runs_buildOne_list hschema h.list hbuilt
      rcases runs_markRequired hmark with ⟨rfl, rfl⟩ | ⟨rfl, rfl⟩
      · exact ⟨fuel, type, id, s', n, n, _, harray, rfl, rfl, rfl⟩
      · exact ⟨fuel, type, id, s', n, _, s, harray, rfl, Node.shown_modify _ _, rfl⟩

/-- The property is laid out with as many items as are counted. -/
theorem shown_property (h : ctx.HasList name array) {fuel : Nat}
    (hrun : (buildProperty (buildNode ctx fuel) {} ctx.schema (Pointer.anyItem "") name).Runs
      p made q) (hn : n ∈ made) (hl : q.templates.Extends l)
    (hnone : ∀ name, (name, none) ∉ l)
    (hfiled : ∀ t, l.template? (ctx.itemPlace name) = some t →
      t.node.control.isReference = false) : n.shown = ctx.listCount name array := by
  obtain ⟨fuel', type, id, s, m, first, s', harray, rfl, hshown, ht⟩ := runs_listProperty h hrun
  rw [List.mem_singleton.mp hn, hshown, shown_list h (serves_buildNode fuel')
    (propertyRequest_root _ _) (propertyRequest_fullPointer _ _) harray (ht ▸ hl) hnone hfiled,
    boundsFor, ArrayBounds.instanceCount_of h.tupleLength, propertyRequest_root]
  exact ArrayBounds.listCount_congr (limits_controlFor _ _ _ _ _) _

end Generate

end SchemaForm
