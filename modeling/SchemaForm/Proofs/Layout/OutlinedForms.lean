/-
Forms of nested objects.

Where nothing in a schema of nested objects is a reference, an `allOf` list or an array, a form
of it is always built, and is the outline of the schema again (`Form.outlined`): node by node the
layout is bound to the properties, and the data map has one entry for each, with the place of
its schema.

The names of properties do not matter: one may be called like a keyword, like an index or like
the wildcard.
-/
import SchemaForm.Proofs.Layout.Mirroring
import SchemaForm.Proofs.Layout.Standing

namespace SchemaForm

open Build
open Schema (Property)

namespace Compose

variable {ctx : Setup} {p : Progress}

/-- The layout of a whole schema ends if the schema is built. -/
theorem layout_gives {Q : Mapped Node → Progress → Prop}
    (h : Gives { p with lastId := p.lastId + 1 } (Generate.run ctx {}) Q) :
    Gives p (layout ctx [.str "*"]) fun _ _ => True := by
  have hentry : Gives p (composeEntry ctx (.str "*") none (Pointer.item "" 0)) fun _ _ => True := by
    refine .bind (R := fun _ s => s = { p with lastId := p.lastId + 1 }) ?_ ?_
    · exact ⟨_, _, runs_newId.mpr ⟨rfl, rfl⟩, rfl⟩
    · rintro id _ rfl
      exact h.mono fun _ _ _ => trivial
  refine .bind (R := fun _ _ => True) ?_ fun nodes s _ => ?_
  · exact .bind hentry fun _ _ _ => .bind (R := fun _ _ => True) (.pure trivial)
      fun _ _ _ => .pure trivial
  · refine .bind (R := fun _ _ => True) ?_ fun nodes s _ => ?_
    · unfold withSubmit
      split
      · exact .bind (R := fun _ _ => True) ⟨_, _, runs_newId.mpr ⟨rfl, rfl⟩, trivial⟩
          fun _ _ _ => .pure trivial
      · exact .pure trivial
    · exact .bind (R := fun _ _ => True) ⟨(), _, runs_onTemplates.mpr rfl, trivial⟩
        fun _ _ _ => .pure trivial

end Compose

namespace Form

open Generate

variable {options : FormOptions} {widgets : Registry} {data : Option Json} {members : Members}

/-- A form of a schema is compiled if the schema is resolved and built. -/
theorem compile_of_run {resolved : Resolved}
    (hresolved : Resolved.of? (.obj members) = some resolved)
    {Q : Mapped Node → Progress → Prop}
    (h : Gives { lastId := 1 } (run ⟨resolved, data.getD .null, options, widgets⟩ {}) Q) :
    ∃ form mapped s, compile options widgets (some (.obj members)) none data = .ok form ∧
      form.setup = ⟨resolved, data.getD .null, options, widgets⟩ ∧ Q mapped s ∧
      ∃ more, (more = [] ∨ ∃ id, more = [Compose.submitControl form.setup id]) ∧
        form.layout = Node.mapAll (Compose.withTitleMap form.setup.options.flatList)
          (mapped.toList.map (·.modify (Compose.topControl form.setup)) ++ more) ∧
        form.progress.dataMap = s.dataMap := by
  obtain ⟨layout, progress, hlayout, -⟩ := Compose.layout_gives (p := {}) h
  obtain ⟨mapped, s, hgiven, hQ⟩ := h
  obtain ⟨mapped', s', more, last, hrun, hmore, hnodes, hprogress⟩ :=
    Compose.runs_wholeLayout hlayout
  obtain ⟨rfl, rfl⟩ := Prod.mk.inj (Option.some.inj (hgiven.symm.trans hrun))
  have hbuilt : (Compose.layout ⟨resolved, data.getD .null, options, widgets⟩ [.str "*"]).run {} =
      some (layout, progress) := hlayout
  refine ⟨⟨layout, ⟨resolved, data.getD .null, options, widgets⟩, progress⟩, mapped, s, ?_, rfl,
    hQ, more, hmore, hnodes, by rw [hprogress]⟩
  simp only [compile, schemaOf, entriesOf, setupOf?, hresolved, Option.map_some, bind, Except.bind,
    Option.bind_some, build?, hbuilt, pure, Except.pure]

/-- The form is the outline of its schema: the nodes are bound to the properties, in their order
and one within the other; each property is met once; and the data map has an entry for each one,
with the place where the schema of the property is. -/
structure Mirrors (form : Form) (nodes : List Node) (outlines : List (Outline Property)) :
    Prop where
  nested : Node.outlineAll nodes = Outline.mapAll (some ·.pointer) outlines
  listed : (Node.controlsAll nodes).map (·.dataPointer) =
    (Outline.labelsAll outlines).map (some ·.pointer)
  once : ((Outline.labelsAll outlines).map Property.pointer).Nodup
  keys : Table.names form.progress.dataMap = (Outline.labelsAll outlines).map Property.pointer
  entries : ∀ f ∈ Outline.labelsAll outlines, ∃ e,
    Table.get? form.progress.dataMap f.pointer = some e ∧
      e.schemaPointer = some f.schemaPointer ∧ form.schema.at? f.schemaPointer = some f.schema

/-- What is said of the nodes and the entries is said of the form. -/
theorem mirrors_of_run {form : Form} {nodes : List Node} {outlines : List (Outline Property)}
    {p q : Progress} (h : Generate.Mirrors outlines p nodes q) (hp : p.dataMap = [])
    (hq : form.progress.dataMap = q.dataMap)
    (hn : ((Outline.labelsAll outlines).map Property.path).Nodup)
    (hfields : ∀ f ∈ Outline.labelsAll outlines,
      Schema.Field form.schema f.schemaPath f.path f.schema) : Mirrors form nodes outlines := by
  have honce : ((Outline.labelsAll outlines).map Property.pointer).Nodup := by
    have hpointers : (Outline.labelsAll outlines).map Property.pointer =
        ((Outline.labelsAll outlines).map Property.path).map Pointer.ofSegments := by
      rw [List.map_map]
      rfl
    rw [hpointers]
    exact hn.map Pointer.ofSegments_injective
  refine ⟨h.nodes, ?_, honce, ?_, fun f hf => ?_⟩
  · rw [← Node.labels_outlineAll, h.nodes, Outline.labelsAll_mapAll]
  · rw [hq, h.notes.names honce fun f _ => by rw [hp]; exact List.not_mem_nil, hp]
    rfl
  · obtain ⟨e, he, hpointer⟩ := h.notes.entry honce f hf
    refine ⟨e, hq ▸ he, hpointer, ?_⟩
    rw [Property.schemaPointer, Json.at?_ofSegments]
    exact (hfields f hf).follow

/-- **Forms of nested objects.**  A schema of objects in objects, with no references, `allOf`
lists or arrays, has a form whatever its properties are called, and that is its outline, with a
submit control behind it at most. -/
theorem outlined {document : Json} (hd : document.Distinct)
    (hv : Schema.EachObject Schema.Verbatim .schema document) (hn : Schema.Nested document)
    (ht : Schema.typeName? document = some "object") (hp : document.has "properties" = true)
    (options : FormOptions) (widgets : Registry) (data : Option Json) :
    ∃ form nodes more, compile options widgets (some document) none data = .ok form ∧
      form.layout = nodes ++ more ∧
      (more = [] ∨ ∃ id, more = [Compose.submitControl form.setup id]) ∧
      Mirrors form nodes (Schema.outlines document) := by
  cases hn with
  | scalar htype hscalar => exact absurd ht (Schema.not_object_of_scalar htype hscalar)
  | silent hsilent => exact absurd (hsilent.symm.trans (yields_object ht hp)) Bool.false_ne_true
  | @object members properties _ hproperties horder hnested =>
  have hbelow : (Json.obj properties).Distinct := hd.member hproperties
  let kept := Schema.withoutDefinitions members
  have hkept : Table.get? kept "properties" = some (.obj properties) :=
    (Schema.get?_withoutDefinitions (by decide)).trans hproperties
  have htype : Schema.typeName? (.obj kept) = some "object" :=
    (Schema.typeName?_withoutDefinitions members).trans ht
  have horder' : "ui:order" ∉ Table.names kept := by
    rw [← Table.get?_eq_none_iff, Schema.get?_withoutDefinitions (by decide),
      Table.get?_eq_none_iff]
    exact horder
  let resolved : Resolved := ⟨.obj kept, [], [], [], [], Graph.of (.obj members)⟩
  let setup : Setup := ⟨resolved, data.getD .null, options, widgets⟩
  have hbare : Bare setup := ⟨rfl, rfl⟩
  have hrun := run_mirrors hbare rfl htype hkept horder' hnested hbelow { lastId := 1 }
  have hresolved : Resolved.of? (.obj members) = some resolved := Resolved.of?_verbatim hv
  obtain ⟨form, mapped, s, hform, hsetup, hmirrors, more, hmore, hlayout, hdata⟩ :=
    compile_of_run hresolved hrun
  have houtlines : Schema.outlines (.obj members) = Schema.outlinesOf [] properties :=
    Schema.outlinesUnder_eq hproperties
  have hroot : Schema.Field form.schema (Property.schemaPath ⟨[], .obj kept⟩) [] (.obj kept) := by
    rw [Form.schema, hsetup]
    exact .root
  let nodes := Node.mapAll (Compose.withTitleMap form.setup.options.flatList)
    (mapped.toList.map (·.modify (Compose.topControl form.setup)))
  have hnodes : Node.outlineAll nodes = Node.outlineAll mapped.toList := by
    rw [Node.outlineAll_mapAll (Compose.withTitleMap_same (·.dataPointer) (fun _ _ => rfl) _)]
    exact Node.outlineAll_modify (Compose.topControl_dataPointer form.setup) _
  refine ⟨form, nodes, more, hform, ?_, hmore, ?_⟩
  · rw [hlayout, Node.mapAll_eq_map, List.map_append, ← Node.mapAll_eq_map]
    rcases hmore with rfl | ⟨id, rfl⟩ <;> rfl
  · rw [houtlines]
    refine mirrors_of_run ⟨hnodes.trans hmirrors.nodes, hmirrors.notes⟩ rfl hdata ?_ ?_
    · exact Schema.nodup_outlinesOf hnested hbelow.1 fun entry hm hy =>
        (hnested entry hm).nodup (Json.distinctMembers_iff.mp hbelow.2 entry hm) hy
    · exact Schema.field_outlinesOf hbelow (fun entry hm => (hnested entry hm).field
        (Json.distinctMembers_iff.mp hbelow.2 entry hm)) hroot hkept

/-- An object with a property that is called like a keyword, in one whose name has a slash. -/
def parcelSchema : Json :=
  .obj [("type", .str "object"), ("properties", .obj [
    ("to/from", .obj [("type", .str "object"), ("properties", .obj [
      ("properties", .obj [("type", .str "string")]), ("0", .obj [("type", .str "null")])])]),
    ("$ref", .obj [("type", .str "boolean")]),
    ("-", .obj [])])]

theorem outlined_parcel :
    parcelSchema.Distinct ∧ Schema.EachObject Schema.Verbatim .schema parcelSchema ∧
      Schema.Nested parcelSchema ∧
      (Outline.labelsAll (Schema.outlines parcelSchema)).map Property.pointer =
        ["/to~1from", "/to~1from/properties", "/to~1from/0", "/$ref"] ∧
      ∃ form nodes more, compile {} [] (some parcelSchema) none none = .ok form ∧
        form.layout = nodes ++ more ∧
        (more = [] ∨ ∃ id, more = [Compose.submitControl form.setup id]) ∧
        Mirrors form nodes (Schema.outlines parcelSchema) := by
  have hd : parcelSchema.Distinct := by
    simp [parcelSchema, Json.Distinct, Json.DistinctMembers, Table.names]
  have hv : Schema.EachObject Schema.Verbatim .schema parcelSchema := by
    refine (Schema.eachObject_iff "").mpr fun object hm => ?_
    have hall : ∀ object ∈ Schema.objects parcelSchema, "$ref" ∉ Table.names object.2 ∧
        "allOf" ∉ Table.names object.2 ∧ Schema.isTyped (.obj object.2) "array" = false := by
      decide
    obtain ⟨href, hallOf, harray⟩ := hall object hm
    exact ⟨href, hallOf, harray⟩
  have hn : Schema.Nested parcelSchema := by
    refine .object rfl rfl (by decide) ?_
    simp only [List.forall_mem_cons]
    refine ⟨.object rfl rfl (by decide) ?_, .scalar rfl (by decide), .silent rfl, ?_⟩
    · simp only [List.forall_mem_cons]
      exact ⟨.scalar rfl (by decide), .scalar rfl (by decide), fun _ h => absurd h List.not_mem_nil⟩
    · exact fun _ h => absurd h List.not_mem_nil
  exact ⟨hd, hv, hn, by decide, outlined hd hv hn rfl rfl {} [] none⟩

end Form

end SchemaForm
