/-
Outlines of nested objects.

A schema of objects in objects, with scalars at the leaves (`Nested`), has an outline: the tree
of its properties that yield a control, in the order in which they are declared.  Each property
is met once (`Schema.Nested.nodup`), and is a field of the schema with its own place
(`Schema.Nested.field`).  The outline of laid out nodes is the tree of what they are bound to.
-/
import SchemaForm.Proofs.Layout.Composed
import SchemaForm.Proofs.Schema.Fields

namespace SchemaForm

/-! ## Outlines -/

/-- A tree of labels. -/
inductive Outline (α : Type) where
  | mk (label : α) (inner : List (Outline α))

namespace Outline

variable {α β : Type}

mutual

def map (f : α → β) : Outline α → Outline β
  | mk label inner => mk (f label) (mapAll f inner)

def mapAll (f : α → β) : List (Outline α) → List (Outline β)
  | [] => []
  | o :: rest => map f o :: mapAll f rest

end

mutual

/-- The labels in pre-order. -/
def labels : Outline α → List α
  | mk label inner => label :: labelsAll inner

def labelsAll : List (Outline α) → List α
  | [] => []
  | o :: rest => labels o ++ labelsAll rest

end

theorem mapAll_append (f : α → β) (os more : List (Outline α)) :
    mapAll f (os ++ more) = mapAll f os ++ mapAll f more := by
  induction os with
  | nil => rfl
  | cons o os ih => rw [List.cons_append, mapAll, mapAll, ih, List.cons_append]

theorem labelsAll_append (os more : List (Outline α)) :
    labelsAll (os ++ more) = labelsAll os ++ labelsAll more := by
  induction os with
  | nil => rfl
  | cons o os ih => rw [List.cons_append, labelsAll, labelsAll, ih, List.append_assoc]

theorem labelsAll_singleton (o : Outline α) : labelsAll [o] = labels o := List.append_nil _

theorem mem_labelsAll {os : List (Outline α)} {x : α} :
    x ∈ labelsAll os ↔ ∃ o ∈ os, x ∈ o.labels := by
  induction os with
  | nil => simp [labelsAll]
  | cons o os ih => simp [labelsAll, ih]

mutual

theorem labels_map (f : α → β) : ∀ o : Outline α, (o.map f).labels = o.labels.map f
  | mk label inner => by rw [map, labels, labels, labelsAll_mapAll f inner, List.map_cons]

theorem labelsAll_mapAll (f : α → β) :
    ∀ os : List (Outline α), labelsAll (mapAll f os) = (labelsAll os).map f
  | [] => rfl
  | o :: os => by
      rw [mapAll, labelsAll, labelsAll, labels_map f o, labelsAll_mapAll f os, List.map_append]

end

end Outline

namespace Node

mutual

/-- The data pointers of a node and of what it contains. -/
def outline : Node → Outline (Option String)
  | mk c items => .mk c.dataPointer (outlineAll items)

def outlineAll : List Node → List (Outline (Option String))
  | [] => []
  | n :: rest => outline n :: outlineAll rest

end

variable {f : Control → Control}

theorem outlineAll_append (ns more : List Node) :
    outlineAll (ns ++ more) = outlineAll ns ++ outlineAll more := by
  induction ns with
  | nil => rfl
  | cons n ns ih => rw [List.cons_append, outlineAll, outlineAll, ih, List.cons_append]

theorem outlineAll_modify (hf : ∀ c, (f c).dataPointer = c.dataPointer) (ns : List Node) :
    outlineAll (ns.map (·.modify f)) = outlineAll ns := by
  induction ns with
  | nil => rfl
  | cons n ns ih =>
      cases n with
      | mk c items =>
          rw [List.map_cons, outlineAll, outlineAll, ih, modify, outline, outline, hf]

mutual

theorem outline_map (hf : ∀ c, (f c).dataPointer = c.dataPointer) :
    ∀ n : Node, (n.map f).outline = n.outline
  | mk c items => by rw [map, outline, outline, hf, outlineAll_mapAll hf items]

theorem outlineAll_mapAll (hf : ∀ c, (f c).dataPointer = c.dataPointer) :
    ∀ ns : List Node, outlineAll (mapAll f ns) = outlineAll ns
  | [] => rfl
  | n :: ns => by rw [mapAll, outlineAll, outlineAll, outline_map hf n, outlineAll_mapAll hf ns]

end

mutual

theorem labels_outline : ∀ n : Node, n.outline.labels = n.controls.map (·.dataPointer)
  | mk c items => by
      rw [outline, Outline.labels, labels_outlineAll items, controls, List.map_cons]

theorem labels_outlineAll :
    ∀ ns : List Node, Outline.labelsAll (outlineAll ns) = (controlsAll ns).map (·.dataPointer)
  | [] => rfl
  | n :: ns => by
      rw [outlineAll, Outline.labelsAll, labels_outline n, labels_outlineAll ns, controlsAll,
        List.map_append]

end

end Node

/-! ## The outline of a schema -/

namespace Schema

/-- A property at any depth: the names on the way to it, and its schema. -/
structure Property where
  path : List String
  schema : Json

namespace Property

/-- The place of the property in the data. -/
def pointer (f : Property) : String := Pointer.ofSegments f.path

/-- The keys on the way to the schema of the property. -/
def schemaPath (f : Property) : List String := f.path.flatMap fun name => ["properties", name]

/-- The place of the schema of the property. -/
def schemaPointer (f : Property) : String := Pointer.ofSegments f.schemaPath

/-- A property of the property. -/
def child (f : Property) (name : String) (schema : Json) : Property := ⟨f.path ++ [name], schema⟩

theorem schemaPath_child (f : Property) (name : String) (schema : Json) :
    (f.child name schema).schemaPath = f.schemaPath ++ ["properties", name] := by
  rw [schemaPath, child, List.flatMap_append]
  rfl

end Property

/-- Whether a schema yields a control. -/
def yields (schema : Json) : Bool :=
  Generate.isDescribed schema && (controlType? schema []).isSome

mutual

/-- The outline of the schema at a path of names: an object contains its properties that yield
a control. -/
def outline (path : List String) : Json → Outline Property
  | .obj members => .mk ⟨path, .obj members⟩
      (if typeName? (.obj members) = some "object" then outlinesUnder path members else [])
  | other => .mk ⟨path, other⟩ []

def outlinesUnder (path : List String) : List (String × Json) → List (Outline Property)
  | [] => []
  | (key, .obj properties) :: rest =>
      if key = "properties" then outlinesOf path properties else outlinesUnder path rest
  | (key, _) :: rest => if key = "properties" then [] else outlinesUnder path rest

def outlinesOf (path : List String) : List (String × Json) → List (Outline Property)
  | [] => []
  | (name, schema) :: rest =>
      (if yields schema then [outline (path ++ [name]) schema] else []) ++ outlinesOf path rest

end

/-- The outlines of the properties of a document. -/
def outlines : Json → List (Outline Property)
  | .obj members => outlinesUnder [] members
  | _ => []

def scalarTypes : List String := ["string", "number", "integer", "boolean", "null"]

/-- Objects in objects, with scalars at the leaves.  What yields no control may be a property
too. -/
inductive Nested : Json → Prop
  | object {members properties : Members} :
      typeName? (.obj members) = some "object" →
      Table.get? members "properties" = some (.obj properties) →
      "ui:order" ∉ Table.names members →
      (∀ entry ∈ properties, Nested entry.2) → Nested (.obj members)
  | scalar {schema : Json} {type : String} :
      typeName? schema = some type → type ∈ scalarTypes → Nested schema
  | silent {schema : Json} : yields schema = false → Nested schema

variable {members properties : Members} {path : List String} {schema : Json}

theorem outlinesUnder_eq (h : Table.get? members "properties" = some (.obj properties)) :
    outlinesUnder path members = outlinesOf path properties := by
  induction members with
  | nil => cases h
  | cons entry rest ih =>
      obtain ⟨key, value⟩ := entry
      rw [Table.get?_cons] at h
      by_cases hkey : key = "properties"
      · rw [if_pos hkey] at h
        obtain rfl := Option.some.inj h
        rw [outlinesUnder, if_pos hkey]
      · rw [if_neg hkey] at h
        have hrest := ih h
        cases value <;> simp only [outlinesUnder, if_neg hkey, hrest]

theorem outline_object (ht : typeName? (.obj members) = some "object")
    (hp : Table.get? members "properties" = some (.obj properties)) :
    outline path (.obj members) = .mk ⟨path, .obj members⟩ (outlinesOf path properties) := by
  rw [outline, if_pos ht, outlinesUnder_eq hp]

theorem outline_leaf (ht : typeName? schema ≠ some "object") :
    outline path schema = .mk ⟨path, schema⟩ [] := by
  cases schema with
  | obj members => rw [outline, if_neg ht]
  | _ => rfl

theorem outlinesOf_cons (path : List String) (name : String) (schema : Json) (rest : Members) :
    outlinesOf path ((name, schema) :: rest) =
      (if yields schema then [outline (path ++ [name]) schema] else []) ++
        outlinesOf path rest := by
  rw [outlinesOf]

/-! ### Paths of an outline -/

theorem mem_outlinesOf {o : Outline Property} :
    o ∈ outlinesOf path properties ↔
      ∃ entry ∈ properties, yields entry.2 = true ∧ o = outline (path ++ [entry.1]) entry.2 := by
  induction properties with
  | nil => simp [outlinesOf]
  | cons entry rest ih =>
      obtain ⟨name, schema⟩ := entry
      rw [outlinesOf_cons, List.mem_append, ih]
      cases hyields : yields schema <;> simp [hyields]

theorem not_object_of_scalar {type : String} (ht : typeName? schema = some type)
    (hscalar : type ∈ scalarTypes) : typeName? schema ≠ some "object" := by
  rw [ht]
  rintro he
  obtain rfl := Option.some.inj he
  exact absurd hscalar (by decide)

/-- All that is in the outlines of properties is at or below one of them. -/
theorem path_outlinesOf {f : Property}
    (ih : ∀ entry ∈ properties, yields entry.2 = true → ∀ {path} {f : Property},
      f ∈ (outline path entry.2).labels → path <+: f.path)
    (hf : f ∈ Outline.labelsAll (outlinesOf path properties)) :
    ∃ name ∈ Table.names properties, path ++ [name] <+: f.path := by
  obtain ⟨o, ho, hf⟩ := Outline.mem_labelsAll.mp hf
  obtain ⟨entry, hentry, hyields, rfl⟩ := mem_outlinesOf.mp ho
  exact ⟨entry.1, List.mem_map_of_mem hentry, ih entry hentry hyields hf⟩

/-- All that is in the outline of a schema is at or below its path. -/
theorem Nested.path_le (hn : Nested schema) (hy : yields schema = true) :
    ∀ {path} {f : Property}, f ∈ (outline path schema).labels → path <+: f.path := by
  induction hn with
  | object ht hp _ _ ih =>
      intro path f hf
      rw [outline_object ht hp] at hf
      rcases List.mem_cons.mp hf with rfl | hf
      · exact List.prefix_rfl
      · obtain ⟨name, -, hle⟩ := path_outlinesOf ih hf
        exact (List.prefix_append path [name]).trans hle
  | scalar ht hscalar =>
      intro path f hf
      rw [outline_leaf (not_object_of_scalar ht hscalar)] at hf
      rw [List.mem_singleton.mp hf]
  | silent hsilent => exact absurd (hsilent.symm.trans hy) Bool.false_ne_true

/-- Two properties of one object are not above the same place. -/
theorem eq_of_above {path below : List String} {name other : String}
    (h : path ++ [name] <+: below) (h' : path ++ [other] <+: below) : name = other := by
  obtain ⟨rest, rfl⟩ := h
  obtain ⟨rest', he⟩ := h'
  rw [List.append_assoc, List.append_assoc] at he
  exact (List.cons.inj (List.append_cancel_left he)).1.symm

theorem nodup_outlinesOf (hn : ∀ entry ∈ properties, Nested entry.2)
    (hnames : (Table.names properties).Nodup)
    (ih : ∀ entry ∈ properties, yields entry.2 = true → ∀ path,
      ((outline path entry.2).labels.map Property.path).Nodup) :
    ((Outline.labelsAll (outlinesOf path properties)).map Property.path).Nodup := by
  induction properties with
  | nil => exact List.nodup_nil
  | cons entry rest ihrest =>
      obtain ⟨name, schema⟩ := entry
      obtain ⟨hname, hnames⟩ := List.nodup_cons.mp hnames
      obtain ⟨hfirst, hn⟩ := List.forall_mem_cons.mp hn
      have hrest := ihrest hn hnames fun entry hm => ih entry (List.mem_cons_of_mem _ hm)
      rw [outlinesOf_cons]
      split
      · next hy =>
          rw [Outline.labelsAll_append, Outline.labelsAll_singleton, List.map_append,
            List.nodup_append]
          refine ⟨ih _ List.mem_cons_self hy _, hrest, ?_⟩
          rintro a ha b hb rfl
          obtain ⟨f, hf, rfl⟩ := List.mem_map.mp ha
          obtain ⟨g, hg, he⟩ := List.mem_map.mp hb
          obtain ⟨other, hother, hle⟩ :=
            path_outlinesOf (fun entry hm hy => (hn entry hm).path_le hy) hg
          rw [he] at hle
          exact hname (eq_of_above (hfirst.path_le hy hf) hle ▸ hother)
      · exact hrest

/-- No two properties in an outline have the same path. -/
theorem Nested.nodup (hn : Nested schema) (hd : schema.Distinct) (hy : yields schema = true) :
    ∀ path, ((outline path schema).labels.map Property.path).Nodup := by
  induction hn with
  | @object members properties ht hp _ hnested ih =>
      intro path
      have hbelow : (Json.obj properties).Distinct := hd.member hp
      rw [outline_object ht hp, Outline.labels, List.map_cons, List.nodup_cons]
      constructor
      · intro hm
        obtain ⟨f, hf, he⟩ := List.mem_map.mp hm
        obtain ⟨name, -, hle⟩ :=
          path_outlinesOf (fun entry hm hy => (hnested entry hm).path_le hy) hf
        have hlength := hle.length_le
        rw [he, List.length_append, List.length_singleton] at hlength
        exact Nat.lt_irrefl _ hlength
      · exact nodup_outlinesOf hnested hbelow.1 fun entry hm hy =>
          ih entry hm (Json.distinctMembers_iff.mp hbelow.2 entry hm) hy
  | scalar ht hscalar =>
      intro path
      rw [outline_leaf (not_object_of_scalar ht hscalar)]
      exact List.nodup_singleton _
  | silent hsilent => exact absurd (hsilent.symm.trans hy) Bool.false_ne_true

/-! ### Schemas of an outline -/

variable {root : Json}

/-- The properties of an object are fields of the schema, each with its own place. -/
theorem field_child {f : Property} {entry : String × Json}
    (hfield : Field root f.schemaPath f.path f.schema)
    (hproperties : f.schema.get? "properties" = some (.obj properties))
    (hnames : (Table.names properties).Nodup) (hentry : entry ∈ properties) :
    Field root (f.child entry.1 entry.2).schemaPath (f.child entry.1 entry.2).path
      (f.child entry.1 entry.2).schema := by
  rw [Property.schemaPath_child]
  refine .property hfield ?_ (Table.get?_of_mem hnames hentry)
  rw [hproperties]
  rfl

/-- All that is in the outlines of the properties of a field are fields. -/
theorem field_outlinesOf (hd : (Json.obj properties).Distinct)
    (ih : ∀ entry ∈ properties, yields entry.2 = true → ∀ {path},
      Field root (Property.schemaPath ⟨path, entry.2⟩) path entry.2 →
        ∀ f ∈ (outline path entry.2).labels, Field root f.schemaPath f.path f.schema)
    (hfield : Field root (Property.schemaPath ⟨path, schema⟩) path schema)
    (hp : schema.get? "properties" = some (.obj properties)) :
    ∀ f ∈ Outline.labelsAll (outlinesOf path properties),
      Field root f.schemaPath f.path f.schema := by
  intro f hf
  obtain ⟨o, ho, hf⟩ := Outline.mem_labelsAll.mp hf
  obtain ⟨entry, hentry, hyields, rfl⟩ := mem_outlinesOf.mp ho
  exact ih entry hentry hyields (field_child (f := ⟨path, schema⟩) hfield hp hd.1 hentry) f hf

/-- All that is in the outline of a field are fields. -/
theorem Nested.field (hn : Nested schema) (hd : schema.Distinct) (hy : yields schema = true) :
    ∀ {path}, Field root (Property.schemaPath ⟨path, schema⟩) path schema →
      ∀ f ∈ (outline path schema).labels, Field root f.schemaPath f.path f.schema := by
  induction hn with
  | @object members properties ht hp _ _ ih =>
      intro path hfield f hf
      have hbelow : (Json.obj properties).Distinct := hd.member hp
      rw [outline_object ht hp] at hf
      rcases List.mem_cons.mp hf with rfl | hf
      · exact hfield
      · exact field_outlinesOf hbelow (fun entry hm => ih entry hm
          (Json.distinctMembers_iff.mp hbelow.2 entry hm)) hfield hp f hf
  | scalar ht hscalar =>
      intro path hfield f hf
      rw [outline_leaf (not_object_of_scalar ht hscalar)] at hf
      rw [List.mem_singleton.mp hf]
      exact hfield
  | silent hsilent => exact absurd (hsilent.symm.trans hy) Bool.false_ne_true

end Schema

end SchemaForm
