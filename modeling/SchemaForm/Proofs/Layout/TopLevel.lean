/-
Forms of objects.

The layout of an object as a whole is that of its properties, one after the other.  Each node in
it comes of the run for one property, and what is stored then stays (`runs_object_mem`).
-/
import SchemaForm.Proofs.Layout.DataPointers
import SchemaForm.Proofs.Layout.Offers
import SchemaForm.Proofs.Layout.Sizes

namespace SchemaForm

open Build

namespace Generate

variable {ctx : Setup} {p q : Progress} {schema : Json} {n : Node} {mapped : Mapped Node}

theorem isDescribed_of_typeName {type : String} (h : Schema.typeName? schema = some type) :
    isDescribed schema = true := by
  have htype : schema.has "type" = true := by
    unfold Schema.typeName? at h
    rw [Json.has]
    split at h
    · next ht => rw [ht]; rfl
    · next ht => rw [ht]; rfl
    · cases h
  rw [isDescribed, htype, Bool.true_or, Bool.true_or]

/-- An object with properties says enough for a control. -/
theorem speaks_object {pointer : String} {properties : Members}
    (hschema : ctx.resolved.schemaAt? pointer = some schema)
    (hobject : Schema.typeName? schema = some "object")
    (hproperties : (schema.get? "properties").bind Json.obj? = some properties) :
    Speaks ctx pointer := by
  have hdescribed : isDescribed schema = true := isDescribed_of_typeName hobject
  have hhas : schema.has "properties" = true := by
    obtain ⟨found, hfound, -⟩ := Option.bind_eq_some_iff.mp hproperties
    rw [Json.has, hfound]
    rfl
  cases hnamed : Schema.namedControl? schema with
  | some name =>
      exact ⟨schema, _, hschema, hdescribed, by rw [Schema.controlType?, hnamed]⟩
  | none =>
      refine ⟨schema, "section", hschema, hdescribed, ?_⟩
      simp only [Schema.controlType?, hnamed, hobject, Schema.objectControl?, hhas, if_true]

/-- The request for a property of the form. -/
theorem propertyRequest_root (layoutPointer name : String) :
    (propertyRequest {} layoutPointer name).schemaPointer = Pointer.child "/properties" name := by
  have hempty : "" ++ "/properties" = "/properties" := String.empty_append
  show Pointer.child ("" ++ "/properties") name = _
  rw [hempty]

/-- There is a level below the form as a whole. -/
theorem depthLimit_succ (ctx : Setup) : ∃ fuel, depthLimit ctx = fuel + 1 := by
  refine Nat.exists_eq_succ_of_ne_zero ?_
  unfold depthLimit
  dsimp only
  exact Nat.mul_ne_zero (Nat.succ_ne_zero _) (Nat.succ_ne_zero _)

/-- The form as a whole is one of an object. -/
theorem reads_object (hobject : Schema.typeName? ctx.schema = some "object") :
    Request.Reads ctx {} "object" ctx.schema := by
  refine ⟨schemaAt?_of_field .root, ?_⟩
  rw [dataType?, hobject]
  rfl

/-- The form as a whole is that of its properties, if it is one of an object. -/
theorem runs_object {fuel : Nat} (hfuel : depthLimit ctx = fuel + 1)
    (hobject : Schema.typeName? ctx.schema = some "object") {properties : Members}
    (hproperties : (ctx.schema.get? "properties").bind Json.obj? = some properties)
    (h : (run ctx {}).Runs p mapped q) :
    ∃ s parts, s.templates = p.templates ∧ ((propertyNames ctx.schema properties).mapM
        (buildProperty (buildNode ctx fuel) {} ctx.schema (Pointer.anyItem ""))).Runs s parts q ∧
      mapped = .many parts.flatten := by
  have hroot : ctx.resolved.schemaAt? "" = some ctx.schema := schemaAt?_of_field .root
  obtain ⟨schema, type, hfound, hdescribed, htype⟩ := speaks_object hroot hobject hproperties
  obtain rfl := Option.some.inj (hroot.symm.trans hfound)
  rw [run, hfuel] at h
  simp only [buildNode, buildOne, hroot, Option.filter_some, hdescribed, if_true, htype] at h
  obtain ⟨id, s, hs, h⟩ := runs_buildSchema h
  have hdata : (controlFor ctx {} ctx.schema type id).dataType = some "object" := by
    rw [controlFor_dataType, (reads_object hobject).dataType]
  simp only [complete, hdata, buildProperties, hproperties, runs_bind, runs_pure] at h
  obtain ⟨_, _, ⟨parts, s', hparts, rfl, rfl⟩, rfl, rfl⟩ := h
  refine ⟨_, parts, ?_, hparts, rfl⟩
  rcases hs with ⟨-, -, rfl⟩ | ⟨-, -, rfl⟩ <;> rfl

/-- Without properties there is no node. -/
theorem runs_object_none (hobject : Schema.typeName? ctx.schema = some "object")
    (hnone : (ctx.schema.get? "properties").bind Json.obj? = none)
    (h : (run ctx {}).Runs p mapped q) : mapped.toList = [] := by
  have hat : ctx.resolved.schemaAt? "" = some ctx.schema := schemaAt?_of_field .root
  obtain ⟨fuel, hfuel⟩ := depthLimit_succ ctx
  rw [run, hfuel] at h
  rcases runs_buildOne h with ⟨rfl, -⟩ | ⟨schema, type, hschema, -, -, h⟩
  · rfl
  obtain rfl := Option.some.inj (hat.symm.trans hschema)
  obtain ⟨id, s, -, h⟩ := runs_buildSchema h
  have hdata : (controlFor ctx {} ctx.schema type id).dataType = some "object" := by
    rw [controlFor_dataType, (reads_object hobject).dataType]
  simp only [complete, hdata, buildProperties, hnone, runs_bind, runs_pure] at h
  obtain ⟨_, _, ⟨rfl, -⟩, rfl, -⟩ := h
  rfl

/-- What is stored while the properties of the form are laid out stays. -/
theorem extends_properties {fuel : Nat} {properties : Members} {names : List String}
    (hobject : Schema.typeName? ctx.schema = some "object")
    (hproperties : (ctx.schema.get? "properties").bind Json.obj? = some properties)
    (hnames : names ⊆ propertyNames ctx.schema properties) {parts : List (List Node)}
    (h : (names.mapM (buildProperty (buildNode ctx fuel) {} ctx.schema
      (Pointer.anyItem ""))).Runs p parts q) : p.templates.Extends q.templates := by
  refine runs_mapM (R := fun p _ q => p.templates.Extends q.templates) (fun p => .refl _) ?_ h
  intro name hname p part s parts q hpart hparts
  obtain ⟨mapped, s', required, hbuilt, hmark⟩ := runs_buildProperty hpart
  have hcomes : Comes ctx (Arises ctx) (propertyRequest {} (Pointer.anyItem "") name) :=
    .property (.start (.whole "")) (reads_object hobject) hproperties (hnames hname)
  have hnodes := ((serves_buildNode (B := False) fuel).brings hcomes hbuilt).known
  have hmarked : Brings ctx False s' s mapped.toList part := markRequired_brings hmark
  exact hnodes.trans (hmarked.known.trans hparts)

/-- A node of a form of an object is one of its properties, and what was stored up to then
stays. -/
theorem runs_object_mem {fuel : Nat} (hfuel : depthLimit ctx = fuel + 1)
    (hobject : Schema.typeName? ctx.schema = some "object") {properties : Members}
    (hproperties : (ctx.schema.get? "properties").bind Json.obj? = some properties)
    (h : (run ctx {}).Runs p mapped q) (hn : n ∈ mapped.toList) :
    ∃ name r s made, (buildProperty (buildNode ctx fuel) {} ctx.schema (Pointer.anyItem "")
        name).Runs r made s ∧ n ∈ made ∧ s.templates.Extends q.templates := by
  obtain ⟨s₀, parts, -, hparts, rfl⟩ := runs_object hfuel hobject hproperties h
  obtain ⟨part, hpart, hn⟩ := List.mem_flatten.mp hn
  obtain ⟨before, name, after, parts', rest, r, s, hnames, -, -, hname, hafter⟩ :=
    runs_mapM_mem hparts hpart
  refine ⟨name, r, s, part, hname, hn, extends_properties hobject hproperties ?_ hafter⟩
  rw [hnames]
  exact fun other hother => List.mem_append_right _ (List.mem_cons_of_mem _ hother)

/-- Every property has its turn. -/
theorem runs_object_of_mem {fuel : Nat} (hfuel : depthLimit ctx = fuel + 1)
    (hobject : Schema.typeName? ctx.schema = some "object") {properties : Members}
    (hproperties : (ctx.schema.get? "properties").bind Json.obj? = some properties)
    (h : (run ctx {}).Runs p mapped q) {name : String}
    (hname : name ∈ propertyNames ctx.schema properties) :
    ∃ r s made, (buildProperty (buildNode ctx fuel) {} ctx.schema (Pointer.anyItem "")
        name).Runs r made s ∧ made ⊆ mapped.toList := by
  obtain ⟨s₀, parts, -, hparts, rfl⟩ := runs_object hfuel hobject hproperties h
  obtain ⟨before, after, hsplit⟩ := List.append_of_mem hname
  rw [hsplit] at hparts
  obtain ⟨parts', rest, r, rfl, -, hrest⟩ := runs_mapM_append hparts
  obtain ⟨made, s, rest, hmade, -, rfl⟩ := runs_mapM_cons.mp hrest
  refine ⟨r, s, made, hmade, fun n hn => List.mem_flatten.mpr ⟨made, ?_, hn⟩⟩
  exact List.mem_append_right _ List.mem_cons_self

/-- The node of a property is bound to its place. -/
theorem buildNode_dataPointer {fuel : Nat} {r : Request} (hroot : r.isRoot = false)
    (h : (buildNode ctx fuel r).Runs p mapped q) :
    ∀ n ∈ mapped.toList, n.control.dataPointer = some (ctx.generic r.dataPointer) := by
  cases fuel with
  | zero => exact absurd h not_runs_failure
  | succ fuel =>
      rcases runs_buildOne h with ⟨rfl, -⟩ | ⟨schema, type, -, -, -, h⟩
      · exact fun n hn => absurd hn List.not_mem_nil
      obtain ⟨id, s, -, h⟩ := runs_buildSchema h
      have hc := controlFor_dataPointer ctx r schema type id
      rcases runs_complete h with ⟨-, children, -, rfl⟩ | ⟨-, options, rfl, -⟩ |
          ⟨-, n, hn, rfl⟩ | ⟨-, made, hm, rfl⟩
      · rw [hroot]
        exact List.forall_mem_singleton.mpr hc
      · exact List.forall_mem_singleton.mpr hc
      · obtain ⟨site, items, made, s, -, -, rfl, -⟩ := runs_buildArray hn
        exact List.forall_mem_singleton.mpr hc
      · obtain ⟨rfl, -⟩ := runs_buildReference hm
        exact List.forall_mem_singleton.mpr ((referenceControl_dataPointer ctx r _ _).trans hc)

/-- The nodes of a property are bound to its place. -/
theorem buildProperty_dataPointer {fuel : Nat} {root : Request} {layoutPointer name : String}
    {made : List Node}
    (h : (buildProperty (buildNode ctx fuel) root schema layoutPointer name).Runs p made q) :
    ∀ n ∈ made, n.control.dataPointer =
      some (ctx.generic (Pointer.child root.dataPointer name)) := by
  obtain ⟨mapped, s, required, hbuilt, hmark⟩ := runs_buildProperty h
  have hroot : (propertyRequest root layoutPointer name).isRoot = false :=
    isRoot_of_ne (Pointer.slash_ne_empty _ _)
  have hnodes := buildNode_dataPointer hroot hbuilt
  rcases runs_markRequired hmark with ⟨rfl, -⟩ | ⟨rfl, -⟩
  · exact hnodes
  · intro n hn
    obtain ⟨m, hm, rfl⟩ := List.mem_map.mp hn
    rw [Node.control_modify]
    exact hnodes m hm

end Generate

end SchemaForm
