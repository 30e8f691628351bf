/-
Objects that are built as they are outlined.

Where no pointer is folded and no position is generic (`Generate.Bare`), a request for a
property of nested objects always gives something: the outline of the property, with one entry
of the data map for each property in it, in their order (`Generate.nested_mirrors`).  So it is
for the object as a whole (`Generate.run_mirrors`).
-/
import SchemaForm.Proofs.Layout.Outline
import SchemaForm.Proofs.Layout.Records
import SchemaForm.Proofs.Reference.Verbatim

namespace SchemaForm

open Schema (Property)

/-! ## Recorded properties -/

/-- The entries of the properties are written one after the other, each with the place of its
schema. -/
inductive DataMap.Notes : DataMap → List Property → DataMap → Prop
  | nil {m : DataMap} : Notes m [] m
  | cons {m m' : DataMap} {f : Property} {rest : List Property} {g : DataEntry → DataEntry} :
      (∀ e, (g e).schemaPointer = some f.schemaPointer) →
      Notes (m.update f.pointer g) rest m' → Notes m (f :: rest) m'

namespace DataMap

variable {m m' m'' : DataMap} {fs more : List Property}

theorem Notes.append (h : Notes m fs m') (h' : Notes m' more m'') : Notes m (fs ++ more) m'' := by
  induction h with
  | nil => exact h'
  | cons hg _ ih => exact .cons hg (ih h')

theorem names_update {key : String} (h : key ∉ Table.names m) (g : DataEntry → DataEntry) :
    Table.names (m.update key g) = Table.names m ++ [key] := by
  induction m with
  | nil => rfl
  | cons entry rest ih =>
      obtain ⟨name, e⟩ := entry
      obtain ⟨hne, hrest⟩ := not_or.mp (List.mem_cons.not.mp h)
      rw [update, Table.modify, if_neg (Ne.symm hne)]
      exact congrArg (name :: ·) (ih hrest)

/-- New entries come behind those that there are. -/
theorem Notes.names (h : Notes m fs m') (hn : (fs.map Property.pointer).Nodup)
    (hnew : ∀ f ∈ fs, f.pointer ∉ Table.names m) :
    Table.names m' = Table.names m ++ fs.map Property.pointer := by
  induction h with
  | nil => exact (List.append_nil _).symm
  | @cons m m' f rest g _ _ ih =>
      obtain ⟨hf, hn⟩ := List.nodup_cons.mp hn
      obtain ⟨hfirst, hrest⟩ := List.forall_mem_cons.mp hnew
      rw [ih hn ?_, names_update hfirst, List.append_assoc]
      · rfl
      · intro x hx hm
        rw [names_update hfirst] at hm
        cases List.mem_append.mp hm with
        | inl hm => exact hrest x hx hm
        | inr hm => exact hf (List.mem_singleton.mp hm ▸ List.mem_map_of_mem hx)

theorem Notes.get?_of_not_mem (h : Notes m fs m') {key : String}
    (hkey : key ∉ fs.map Property.pointer) : Table.get? m' key = Table.get? m key := by
  induction h with
  | nil => rfl
  | @cons m m' f rest g _ _ ih =>
      obtain ⟨hne, hrest⟩ := not_or.mp (List.mem_cons.not.mp hkey)
      rw [ih hrest, update, Table.get?_modify, if_neg (Ne.symm hne)]

/-- Every property has its entry. -/
theorem Notes.entry (h : Notes m fs m') (hn : (fs.map Property.pointer).Nodup) :
    ∀ f ∈ fs, ∃ e, Table.get? m' f.pointer = some e ∧ e.schemaPointer = some f.schemaPointer := by
  induction h with
  | nil => exact fun f hf => absurd hf List.not_mem_nil
  | @cons m m' f rest g hg hrest ih =>
      obtain ⟨hf, hn⟩ := List.nodup_cons.mp hn
      refine List.forall_mem_cons.mpr ⟨?_, ih hn⟩
      rw [hrest.get?_of_not_mem hf, update, Table.get?_modify, if_pos rfl]
      exact ⟨_, rfl, hg _⟩

end DataMap

/-! ## Runs that give something -/

namespace Build

variable {α β : Type} {p : Progress} {m : Build α} {Q : α → Progress → Prop}

/-- Started with the progress the computation ends, and what it gives is as said. -/
def Gives (p : Progress) (m : Build α) (Q : α → Progress → Prop) : Prop :=
  ∃ a q, m.Runs p a q ∧ Q a q

theorem Gives.pure {a : α} (h : Q a p) : Gives p (pure a : Build α) Q :=
  ⟨a, p, runs_pure.mpr ⟨rfl, rfl⟩, h⟩

theorem Gives.bind {f : α → Build β} {R : α → Progress → Prop} {Q : β → Progress → Prop}
    (hm : Gives p m R) (hf : ∀ a q, R a q → Gives q (f a) Q) : Gives p (m >>= f) Q := by
  obtain ⟨a, s, ha, hR⟩ := hm
  obtain ⟨b, q, hb, hQ⟩ := hf a s hR
  exact ⟨b, q, runs_bind.mpr ⟨a, s, ha, hb⟩, hQ⟩

theorem Gives.mono {R : α → Progress → Prop} (hm : Gives p m R) (h : ∀ a q, R a q → Q a q) :
    Gives p m Q := by
  obtain ⟨a, q, hrun, hR⟩ := hm
  exact ⟨a, q, hrun, h a q hR⟩

end Build

open Build

/-! ## The walk -/

namespace Generate

/-- The nodes are the outlines again, and their properties are recorded. -/
structure Mirrors (os : List (Outline Property)) (p : Progress) (nodes : List Node)
    (q : Progress) : Prop where
  nodes : Node.outlineAll nodes = Outline.mapAll (some ·.pointer) os
  notes : p.dataMap.Notes (Outline.labelsAll os) q.dataMap

variable {ctx : Setup} {build : Builder} {r : Request} {p q s : Progress} {f : Property}
  {os more : List (Outline Property)} {nodes made : List Node} {properties : Members}

theorem Mirrors.none (h : q.dataMap = p.dataMap) : Mirrors [] p [] q := ⟨rfl, h ▸ .nil⟩

theorem Mirrors.append (h : Mirrors os p nodes q) (h' : Mirrors more q made s) :
    Mirrors (os ++ more) p (nodes ++ made) s := by
  constructor
  · rw [Node.outlineAll_append, Outline.mapAll_append, h.nodes, h'.nodes]
  · rw [Outline.labelsAll_append]
    exact h.notes.append h'.notes

/-- No pointer is folded, and no position is generic. -/
structure Bare (ctx : Setup) : Prop where
  dataFolds : ctx.resolved.dataFolds = []
  arrays : ctx.resolved.arrays = []

theorem Bare.generic (h : Bare ctx) (path : List String) :
    ctx.generic (Pointer.ofSegments path) = Pointer.ofSegments path := by
  rw [Setup.generic, h.arrays, Pointer.toGeneric_ofSegments_nil]

theorem Bare.dataKey (h : Bare ctx) (path : List String) :
    ctx.dataKey (Pointer.ofSegments path) = Pointer.ofSegments path := by
  rw [Setup.dataKey, h.dataFolds, h.arrays, Pointer.shorten_ofSegments_nil]

/-- The request is one for the property. -/
structure Request.IsFor (r : Request) (f : Property) : Prop where
  schemaPointer : r.schemaPointer = f.schemaPointer
  dataPointer : r.dataPointer = f.pointer
  outside : r.inTemplate = false

theorem Request.IsFor.property (h : r.IsFor f) (layoutPointer name : String) (schema : Json) :
    (propertyRequest r layoutPointer name).IsFor (f.child name schema) := by
  refine ⟨?_, ?_, ?_⟩
  · show Pointer.child (r.schemaPointer ++ "/properties") name = _
    rw [h.schemaPointer, Property.schemaPointer, Pointer.ofSegments_properties,
      Pointer.child_ofSegments, Property.schemaPointer, Property.schemaPath_child,
      List.append_assoc]
    rfl
  · show Pointer.child r.dataPointer name = _
    rw [h.dataPointer, Property.pointer, Pointer.child_ofSegments]
    rfl
  · rw [propertyRequest_inTemplate]
    exact h.outside

/-- The outline of a property, if it yields a control. -/
def shown (f : Property) : List (Outline Property) :=
  if Schema.yields f.schema then [Schema.outline f.path f.schema] else []

/-! ### Objects -/

theorem markRequired_mirrors (required : Bool) (h : Mirrors os p nodes s) :
    Gives s (markRequired required nodes) (Mirrors os p) := by
  unfold markRequired
  split
  · refine ⟨_, _, runs_bind.mpr ⟨(), _, runs_noteRequired.mpr rfl, runs_pure.mpr ⟨rfl, rfl⟩⟩, ?_⟩
    refine ⟨?_, h.notes⟩
    rw [← h.nodes]
    exact Node.outlineAll_modify (f := (·.setOption "required" (.bool true))) (fun _ => rfl) nodes
  · exact .pure h

/-- The properties of an object give their outlines, if each one gives its own. -/
theorem buildProperties_mirrors {schema : Json} {layoutPointer : String}
    (hproperties : schema.get? "properties" = some (.obj properties))
    (horder : schema.get? "ui:order" = none)
    (hb : ∀ entry ∈ properties, ∀ layoutPointer p,
      Gives p (build (propertyRequest r layoutPointer entry.1)) fun mapped q =>
        Mirrors (shown (f.child entry.1 entry.2)) p mapped.toList q) :
    Gives p (buildProperties build r schema layoutPointer)
      (Mirrors (Schema.outlinesOf f.path properties) p) := by
  have hall : ∀ (entries : Members) (p : Progress), (∀ entry ∈ entries, entry ∈ properties) →
      Gives p ((Table.names entries).mapM
          (buildProperty build r schema (childLayout r layoutPointer))) fun parts q =>
        Mirrors (Schema.outlinesOf f.path entries) p parts.flatten q := by
    intro entries
    induction entries with
    | nil =>
        intro p _
        exact .pure (.none rfl)
    | cons entry rest ih =>
        intro p hin
        obtain ⟨hentry, hrest⟩ := List.forall_mem_cons.mp hin
        rw [Table.names, List.map_cons, List.mapM_cons]
        refine .bind (R := Mirrors (shown (f.child entry.1 entry.2)) p) ?_ fun part s hpart => ?_
        · refine .bind (hb entry hentry _ p) fun mapped s hmapped => ?_
          exact markRequired_mirrors _ hmapped
        · refine .bind (ih s hrest) fun parts q hparts => .pure ?_
          rw [List.flatten_cons, Schema.outlinesOf_cons]
          exact hpart.append hparts
  have hnames : propertyNames schema properties = Table.names properties := by
    simp only [propertyNames, horder, Option.bind_none]
  simp only [buildProperties, hproperties, Option.bind_some, Json.obj?, hnames]
  exact .bind (hall properties p fun _ hm => hm) fun parts q hparts => .pure hparts

/-! ### Properties -/

theorem Request.IsFor.isRoot (h : r.IsFor f) (hpath : f.path ≠ []) : r.isRoot = false := by
  have hne : r.dataPointer ≠ "" := by
    rw [h.dataPointer, Property.pointer]
    intro he
    exact hpath (Pointer.ofSegments_injective (he.trans rfl))
  rw [Request.isRoot, beq_false_of_ne hne, Bool.false_and]

theorem controlFor_pointer (hctx : Bare ctx) (hr : r.IsFor f) (type : String) (id : Option Nat) :
    (controlFor ctx r f.schema type id).dataPointer = some f.pointer := by
  rw [controlFor_dataPointer, hr.dataPointer, Property.pointer, hctx.generic]

/-- The control of a property is recorded, and then completed. -/
theorem buildSchema_gives (hctx : Bare ctx) (hr : r.IsFor f) (hpath : f.path ≠ []) {type : String}
    {Q : Mapped Node → Progress → Prop}
    (h : ∀ id s,
      s.dataMap = p.dataMap.update f.pointer
        (entryFor r f.schema (controlFor ctx r f.schema type id)) →
      Gives s (complete ctx build r f.schema (controlFor ctx r f.schema type id)) Q) :
    Gives p (buildSchema ctx build r f.schema type) Q := by
  have hnoted : (r.dataPointer ≠ "" && !r.inTemplate) = true := by
    have hroot := hr.isRoot hpath
    rw [Request.isRoot, hr.outside, Bool.not_false, Bool.and_true, beq_eq_false_iff_ne] at hroot
    rw [hr.outside, Bool.not_false, Bool.and_true, decide_eq_true_iff]
    exact hroot
  rw [buildSchema, hr.outside, if_neg Bool.false_ne_true]
  refine .bind (R := fun _ s => s.dataMap = p.dataMap) ?_ fun id s hs => ?_
  · exact ⟨_, _, runs_map.mpr ⟨_, runs_newId.mpr ⟨rfl, rfl⟩, rfl⟩, rfl⟩
  · rw [hr.outside] at hnoted
    simp only [hnoted, if_true, controlFor_pointer hctx hr type id, Option.getD_some]
    rw [Property.pointer, hctx.dataKey]
    refine .bind (R := fun _ s' => s'.dataMap = p.dataMap.update f.pointer
      (entryFor r f.schema (controlFor ctx r f.schema type id))) ?_ fun _ s' hs' => h id s' hs'
    exact ⟨(), _, runs_note.mpr rfl, by rw [hs, Property.pointer]⟩

/-- A scalar is its control. -/
theorem complete_scalar {schema : Json} {c : Control} {type : String}
    (ht : c.dataType = some type) (hscalar : type ∈ Schema.scalarTypes) :
    complete ctx build r schema c = pure (.one (.mk c [])) := by
  have hne : ∀ {other}, c.dataType = some other → other ∈ Schema.scalarTypes := by
    intro other hother
    obtain rfl := Option.some.inj (ht.symm.trans hother)
    exact hscalar
  unfold complete
  split
  · next h => exact absurd (hne h) (by decide)
  · next h => exact absurd (hne h) (by decide)
  · next h => exact absurd (hne h) (by decide)
  · rfl

theorem buildOne_silent {schema : Json}
    (hschema : ctx.resolved.schemaAt? r.schemaPointer = some schema)
    (hy : Schema.yields schema = false) : buildOne ctx build r = pure .drop := by
  unfold buildOne
  rw [hschema]
  rcases Bool.and_eq_false_iff.mp hy with hdescribed | htype
  · rw [Option.filter_some, if_neg (by rw [hdescribed]; exact Bool.false_ne_true)]
  · rw [Option.isSome_eq_false_iff, Option.isNone_iff_eq_none] at htype
    cases hfilter : (some schema).filter isDescribed with
    | none => rfl
    | some found =>
        obtain rfl := Option.some.inj (Option.filter_eq_some_iff.mp hfilter).1
        simp only [htype]

theorem buildOne_yields (build : Builder) {schema : Json}
    (hschema : ctx.resolved.schemaAt? r.schemaPointer = some schema)
    (hy : Schema.yields schema = true) :
    ∃ type, buildOne ctx build r = buildSchema ctx build r schema type := by
  obtain ⟨hdescribed, htype⟩ := Bool.and_eq_true_iff.mp hy
  obtain ⟨type, htype⟩ := Option.isSome_iff_exists.mp htype
  refine ⟨type, ?_⟩
  unfold buildOne
  rw [hschema, Option.filter_some, if_pos hdescribed]
  simp only [htype]

/-- A property is built as its outline says, if that is so of what its control is completed
with. -/
theorem buildOne_mirrors (hctx : Bare ctx) (hr : r.IsFor f) (hpath : f.path ≠ [])
    (hfield : Schema.Field ctx.schema f.schemaPath f.path f.schema)
    {inner : List (Outline Property)} (ho : Schema.outline f.path f.schema = .mk f inner)
    (h : ∀ c s, c.dataType = dataType? f.schema →
      Gives s (complete ctx build r f.schema c) fun mapped q =>
        ∃ children, mapped = .one (.mk c children) ∧ Mirrors inner s children q) :
    Gives p (buildOne ctx build r) fun mapped q => Mirrors (shown f) p mapped.toList q := by
  have hschema : ctx.resolved.schemaAt? r.schemaPointer = some f.schema := by
    rw [hr.schemaPointer]
    exact schemaAt?_of_field hfield
  cases hy : Schema.yields f.schema with
  | false =>
      rw [buildOne_silent hschema hy]
      simp only [shown, hy, Bool.false_eq_true, if_false]
      exact .pure (.none rfl)
  | true =>
      obtain ⟨type, hbuild⟩ := buildOne_yields build hschema hy
      rw [hbuild, shown, if_pos hy, ho]
      refine buildSchema_gives hctx hr hpath fun id s hs => ?_
      refine (h _ s (controlFor_dataType ctx r f.schema type id)).mono ?_
      rintro _ q ⟨children, rfl, hinner⟩
      constructor
      · rw [Mapped.toList, Node.outlineAll, Node.outline, controlFor_pointer hctx hr, hinner.nodes]
        rfl
      · rw [Outline.labelsAll_singleton, Outline.labels]
        refine .cons (fun e => ?_) (hs ▸ hinner.notes)
        rw [entryFor, hr.schemaPointer]

theorem dataType?_eq {schema : Json} {type : String} (ht : Schema.typeName? schema = some type) :
    dataType? schema = some type := by
  rw [dataType?, ht, Option.some_or]

/-- **The walk.**  A property is built as its outline says. -/
theorem nested_mirrors (hctx : Bare ctx) {schema : Json} (hn : Schema.Nested schema)
    (hd : schema.Distinct) {fuel : Nat} (hfuel : schema.size ≤ fuel + 1) {path : List String}
    (hpath : path ≠ [])
    (hfield : Schema.Field ctx.schema (Property.schemaPath ⟨path, schema⟩) path schema)
    (hr : r.IsFor ⟨path, schema⟩) (p : Progress) :
    Gives p (buildNode ctx (fuel + 1) r) fun mapped q =>
      Mirrors (shown ⟨path, schema⟩) p mapped.toList q := by
  induction hn generalizing fuel path r p with
  | @object members properties ht hp horder hnested ih =>
      have hbelow : (Json.obj properties).Distinct := hd.member hp
      have hsizes : (Json.obj properties).size ≤ fuel := by
        have hmember : (Json.obj properties).size ≤ Json.sizeMembers members :=
          Json.size_le_of_get? hp
        rw [Json.size] at hfuel
        omega
      refine buildOne_mirrors hctx hr hpath hfield (Schema.outline_object ht hp) fun c s hc => ?_
      rw [dataType?_eq ht] at hc
      simp only [complete, hc]
      refine .bind (buildProperties_mirrors (f := ⟨path, .obj members⟩) hp
        (Table.get?_eq_none_iff.mpr horder) fun entry hentry layoutPointer p => ?_)
        fun children q hchildren => ?_
      · have hsize : entry.2.size ≤ Json.sizeMembers properties := Json.size_le_of_member hentry
        rw [Json.size] at hsizes
        obtain ⟨less, rfl⟩ : ∃ less, fuel = less + 1 := ⟨fuel - 1, by omega⟩
        exact ih entry hentry (Json.distinctMembers_iff.mp hbelow.2 entry hentry) (by omega)
          (List.concat_ne_nil entry.1 path)
          (Schema.field_child (f := ⟨path, .obj members⟩) hfield hp hbelow.1 hentry)
          (hr.property layoutPointer entry.1 entry.2) p
      · rw [hr.isRoot hpath, if_neg Bool.false_ne_true]
        exact .pure ⟨children, rfl, hchildren⟩
  | @scalar schema type ht hscalar =>
      refine buildOne_mirrors hctx hr hpath hfield
        (Schema.outline_leaf (Schema.not_object_of_scalar ht hscalar)) fun c s hc => ?_
      rw [dataType?_eq ht] at hc
      rw [complete_scalar hc hscalar]
      exact .pure ⟨[], rfl, .none rfl⟩
  | @silent schema hsilent =>
      have hschema : ctx.resolved.schemaAt? r.schemaPointer = some schema := by
        rw [hr.schemaPointer]
        exact schemaAt?_of_field hfield
      rw [buildNode, buildOne_silent hschema hsilent, shown, if_neg]
      · exact .pure (.none rfl)
      · rw [hsilent]
        exact Bool.false_ne_true

/-- An object with properties yields a control. -/
theorem yields_object {schema : Json} (ht : Schema.typeName? schema = some "object")
    (hp : schema.has "properties" = true) : Schema.yields schema = true := by
  have hdescribed : isDescribed schema = true := by
    have htype : schema.has "type" = true := by
      unfold Schema.typeName? at ht
      unfold Json.has
      split at ht
      · next name hname => rw [hname]; rfl
      · next types htypes => rw [htypes]; rfl
      · cases ht
    rw [isDescribed, htype]
    rfl
  rw [Schema.yields, hdescribed, Bool.true_and, Schema.controlType?]
  split
  · rfl
  · rw [ht]
    simp only [Schema.objectControl?, hp, if_true, Option.isSome_some]

/-- The schema as a whole is built as the outlines of its properties say. -/
theorem run_mirrors (hctx : Bare ctx) {members : Members} (hschema : ctx.schema = .obj members)
    (ht : Schema.typeName? (.obj members) = some "object")
    (hp : Table.get? members "properties" = some (.obj properties))
    (horder : "ui:order" ∉ Table.names members)
    (hn : ∀ entry ∈ properties, Schema.Nested entry.2) (hd : (Json.obj properties).Distinct)
    (p : Progress) :
    Gives p (run ctx {}) fun mapped q =>
      Mirrors (Schema.outlinesOf [] properties) p mapped.toList q := by
  have hsizes : (Json.obj properties).size ≤ ctx.schema.size := by
    have hmember : (Json.obj properties).size ≤ Json.sizeMembers members := Json.size_le_of_get? hp
    rw [hschema, Json.size.eq_def (.obj members)]
    dsimp only
    omega
  obtain ⟨fuel, hfuel⟩ : ∃ fuel, depthLimit ctx = (fuel + 1) + 1 ∧ ctx.schema.size ≤ fuel + 1 := by
    refine ⟨depthLimit ctx - 2, ?_⟩
    have hsquare : ctx.schema.size + 2 ≤ depthLimit ctx :=
      Nat.le_trans (by omega) (Nat.le_mul_self _)
    omega
  have hroot : ctx.resolved.schemaAt? ({} : Request).schemaPointer = some (.obj members) := by
    have hfield : Schema.Field ctx.schema [] [] ctx.schema := .root
    rw [← hschema]
    exact schemaAt?_of_field hfield
  have hy : Schema.yields (.obj members) = true :=
    yields_object ht (Option.isSome_iff_exists.mpr ⟨_, hp⟩)
  obtain ⟨type, hbuild⟩ := buildOne_yields (buildNode ctx (fuel + 1)) hroot hy
  have hfield : Schema.Field ctx.schema (Property.schemaPath ⟨[], .obj members⟩) []
      (.obj members) := hschema ▸ .root
  rw [run, hfuel.1, buildNode, hbuild]
  refine .bind (R := fun _ s => s.dataMap = p.dataMap) ?_ fun id s hs => ?_
  · exact ⟨_, _, runs_map.mpr ⟨_, runs_newId.mpr ⟨rfl, rfl⟩, rfl⟩, rfl⟩
  · have hc := controlFor_dataType ctx {} (.obj members) type id
    rw [dataType?_eq ht] at hc
    simp only [complete, hc]
    refine .bind (buildProperties_mirrors (f := ⟨[], .obj members⟩) hp
      (Table.get?_eq_none_iff.mpr horder) fun entry hentry layoutPointer p => ?_)
      fun children q hchildren => ?_
    · have hsize : entry.2.size ≤ Json.sizeMembers properties := Json.size_le_of_member hentry
      rw [Json.size] at hsizes
      exact nested_mirrors hctx (hn entry hentry) (Json.distinctMembers_iff.mp hd.2 entry hentry)
        (by omega) (List.cons_ne_nil _ _)
        (Schema.field_child (f := ⟨[], .obj members⟩) hfield hp hd.1 hentry)
        (Request.IsFor.property (f := ⟨[], .obj members⟩) ⟨rfl, rfl, rfl⟩ layoutPointer entry.1
          entry.2) p
    · exact .pure ⟨hchildren.nodes, hs ▸ hchildren.notes⟩

end Generate

end SchemaForm
