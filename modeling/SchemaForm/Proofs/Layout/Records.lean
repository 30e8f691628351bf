/-
What the data map of a form tells.

Entries of the data map are written while a layout is generated: the one of a control when
a request outside of templates is answered, and the bounds of an array whenever one is
built.  Both are written under a shallowest pointer, so that an entry may be written for
several requests.  Every entry was written for some request that came up (`Recorded`), and
such a request outside of templates is one for a field of the schema (`Comes.field`).

The schema pointer of an entry is that of the field that was written last.  It leads to the
schema of the entry's key, unless that field is at another place of the data than the key,
or is misread at its own:

    ¬Displaced form key pointer  →  the schema at the key is the one at the schema pointer

(`Form.entry_describes`).
-/
import SchemaForm.Proofs.Layout.Derivation
import SchemaForm.Proofs.Schema.Fields

namespace SchemaForm

open Build

namespace Generate

variable {ctx : Setup} {S : Request → Prop} {p q : Progress} {r : Request} {m : DataMap}
  {build : Builder} {schema : Json} {c : Control} {made nodes : List Node} {n : Node}

/-! ## Requests and fields -/

/-- Only properties that are there are laid out. -/
theorem mem_propertyNames {properties : Members} {name : String}
    (h : name ∈ propertyNames schema properties) : ∃ t, Table.get? properties name = some t := by
  unfold propertyNames at h
  split at h
  · exact Table.get?_of_mem_names h
  · obtain ⟨entry, -, hname⟩ := List.mem_flatMap.mp h
    split at hname
    · exact Table.get?_of_mem_names (List.mem_filter.mp hname).1
    · split at hname
      · next hhas =>
          rw [List.mem_singleton.mp hname]
          exact Option.isSome_iff_exists.mp hhas
      · exact absurd hname List.not_mem_nil

theorem schemaAt?_of_field {path place : List String} {s : Json}
    (h : Schema.Field ctx.schema path place s) :
    ctx.resolved.schemaAt? (Pointer.ofSegments path) = some s := by
  have hat : ctx.resolved.schema.at? (Pointer.ofSegments path) = some s := by
    rw [Json.at?_ofSegments]
    exact h.follow
  rw [Resolved.schemaAt?, hat, Option.some_or]

/-- The request is one for a field of the schema. -/
def Request.ForField (ctx : Setup) (r : Request) : Prop :=
  ∃ path place s, Schema.Field ctx.schema path place s ∧
    r.schemaPointer = Pointer.ofSegments path ∧ r.dataPointer = Pointer.ofSegments place

/-- Outside of templates requests are for fields. -/
theorem Comes.field (hS : ∀ r, S r → r.ForField ctx) (h : Comes ctx S r)
    (ht : r.inTemplate = false) : r.ForField ctx := by
  induction h with
  | start h => exact hS _ h
  | @property r schema properties name _ hreads hproperties hname ih =>
      rw [propertyRequest_inTemplate] at ht
      obtain ⟨path, place, s, hfield, hpath, hplace⟩ := ih ht
      have hschema := hreads.found
      rw [hpath, schemaAt?_of_field hfield] at hschema
      obtain rfl := Option.some.inj hschema
      obtain ⟨t, hget⟩ := mem_propertyNames hname
      refine ⟨_, _, t, .property hfield hproperties hget, ?_, ?_⟩
      · show Pointer.child (r.schemaPointer ++ "/properties") name = _
        rw [hpath, Pointer.ofSegments_properties, Pointer.child_ofSegments, List.append_assoc]
        rfl
      · show Pointer.child r.dataPointer name = _
        rw [hplace, Pointer.child_ofSegments]
  | @fixed r schema tuple index _ hreads htuple hindex ih =>
      rw [tupleRequest_inTemplate] at ht
      obtain ⟨path, place, s, hfield, hpath, hplace⟩ := ih ht
      have hschema := hreads.found
      rw [hpath, schemaAt?_of_field hfield] at hschema
      obtain rfl := Option.some.inj hschema
      refine ⟨_, _, _, .position hfield htuple (List.getElem?_eq_getElem hindex), ?_, ?_⟩
      · show Pointer.item (r.schemaPointer ++ "/items") index = _
        rw [hpath, Pointer.ofSegments_items, Pointer.item_ofSegments, List.append_assoc]
        rfl
      · show Pointer.item r.dataPointer index = _
        rw [hplace, Pointer.item_ofSegments]
  | tuple => cases ht
  | list => cases ht
  | target => cases ht

/-! ## Entries and requests -/

/-- A request outside of templates whose entry is the one under the key. -/
def Describes (ctx : Setup) (S : Request → Prop) (key : String) (r : Request) : Prop :=
  Comes ctx S r ∧ r.inTemplate = false ∧ key = ctx.dataKey (ctx.generic r.dataPointer)

/-- The request is one for an array, with these bounds. -/
def Sizes (ctx : Setup) (S : Request → Prop) (r : Request) (b : ArrayBounds) : Prop :=
  ∃ schema c, Answers ctx S r schema c ∧ c.dataType = some "array" ∧ b = boundsFor ctx r schema c

/-- A request for an array with these bounds, recorded under the key. -/
def Measures (ctx : Setup) (S : Request → Prop) (key : String) (b : ArrayBounds) : Prop :=
  ∃ r, Sizes ctx S r b ∧ key = boundsKey ctx r

/-- What an entry says was recorded for requests that come up. -/
structure DataEntry.Recorded (ctx : Setup) (S : Request → Prop) (key : String)
    (e : DataEntry) : Prop where
  schemaPointer : ∀ pointer, e.schemaPointer = some pointer →
    ∃ r, Describes ctx S key r ∧ pointer = r.schemaPointer
  bounds : ∀ b, e.bounds = some b → Measures ctx S key b

/-- All entries were recorded for requests that come up. -/
def Recorded (ctx : Setup) (S : Request → Prop) (m : DataMap) : Prop :=
  ∀ key e, Table.get? m key = some e → DataEntry.Recorded ctx S key e

theorem Recorded.update (h : Recorded ctx S m) {key : String} {f : DataEntry → DataEntry}
    (hf : ∀ e, DataEntry.Recorded ctx S key e → DataEntry.Recorded ctx S key (f e)) :
    Recorded ctx S (m.update key f) := by
  intro other e he
  rw [DataMap.update, Table.get?_modify] at he
  split at he
  · next hkey =>
      subst hkey
      obtain rfl := Option.some.inj he
      cases hget : Table.get? m key with
      | none =>
          refine hf _ ⟨?_, ?_⟩
          · intro pointer hp
            cases hp
          · intro b hb
            cases hb
      | some old => exact hf old (h key old hget)
  · exact h other e he

theorem recorded_noted (h : Recorded ctx S m) (ha : Answers ctx S r schema c)
    (hc : c.dataPointer = some (ctx.generic r.dataPointer)) :
    Recorded ctx S (noted ctx r schema c m) := by
  unfold noted
  split
  · next hnoted =>
      obtain ⟨-, htemplate⟩ := Bool.and_eq_true_iff.mp hnoted
      refine h.update fun e he => ⟨fun pointer hp => ?_, he.bounds⟩
      refine ⟨r, ⟨ha.comes, ?_, ?_⟩, ?_⟩
      · exact Bool.not_eq_eq_eq_not.mp htemplate
      · rw [hc]
        rfl
      · exact (Option.some.inj hp).symm
  · exact h

theorem recorded_bounds (h : Recorded ctx S m) (ha : Answers ctx S r schema c)
    (ht : c.dataType = some "array") :
    Recorded ctx S (m.update (boundsKey ctx r)
      (DataEntry.withBounds (boundsFor ctx r schema c))) := by
  refine h.update fun e he => ⟨he.schemaPointer, fun b hb => ?_⟩
  simp only [DataEntry.withBounds] at hb
  rcases Option.or_eq_some_iff.mp hb with hb | ⟨-, hb⟩
  · exact he.bounds b hb
  · exact ⟨r, ⟨schema, c, ha, ht, (Option.some.inj hb).symm⟩, rfl⟩

/-! ## The walk -/

/-- A builder records for requests that come up. -/
def Records (ctx : Setup) (S : Request → Prop) (build : Builder) : Prop :=
  ∀ {r p mapped q}, Comes ctx S r → Recorded ctx S p.dataMap → (build r).Runs p mapped q →
    Recorded ctx S q.dataMap

theorem markRequired_dataMap {required : Bool} (h : (markRequired required nodes).Runs p made q) :
    q.dataMap = p.dataMap := by
  rcases runs_markRequired h with ⟨-, rfl⟩ | ⟨-, rfl⟩ <;> rfl

theorem buildProperties_records (hb : Records ctx S build) (hr : Comes ctx S r)
    (hschema : r.Reads ctx "object" schema)
    (hp : Recorded ctx S p.dataMap)
    (h : (buildProperties build r schema r.layout).Runs p made q) : Recorded ctx S q.dataMap := by
  rcases runs_buildProperties h with ⟨-, rfl⟩ | ⟨properties, parts, hproperties, hm, -⟩
  · exact hp
  · refine runs_mapM (R := fun p _ q => Recorded ctx S p.dataMap → Recorded ctx S q.dataMap)
      ?_ ?_ hm hp
    · exact fun _ hp => hp
    · intro name hname p part s parts q hpart hparts hp
      obtain ⟨mapped, s', required, hbuilt, hmark⟩ := runs_buildProperty hpart
      refine hparts ?_
      rw [markRequired_dataMap hmark]
      exact hb (.property hr hschema hproperties hname) hp hbuilt

theorem ensureTemplate_records (hb : Records ctx S build) (hr : Comes ctx S r) {name : String}
    {relative : Bool} (hp : Recorded ctx S p.dataMap) {u : Unit}
    (h : (ensureTemplate build name relative r).Runs p u q) : Recorded ctx S q.dataMap := by
  rcases runs_ensureTemplate h with ⟨-, rfl⟩ | ⟨-, mapped, s, hbuilt, rfl⟩
  · exact hp
  · have hreserved : Recorded ctx S
        ({ p with templates := p.templates.reserve name } : Progress).dataMap := hp
    have hs : Recorded ctx S s.dataMap := hb hr hreserved hbuilt
    exact hs

theorem instantiate_dataMap {name : String} {site : Site} {found : Option Node}
    (h : (instantiate name site).Runs p found q) : q.dataMap = p.dataMap := by
  rcases runs_instantiate.mp h with ⟨-, -, rfl⟩ | ⟨t, n, -, hn, -⟩
  · rfl
  · obtain ⟨-, rfl⟩ := runs_placed.mp hn
    rfl

theorem buildTuple_records (hb : Records ctx S build) (hr : Comes ctx S r)
    (hschema : r.Reads ctx "array" schema) {bounds : ArrayBounds}
    {removable : Bool} (hp : Recorded ctx S p.dataMap)
    (h : (buildTuple build r (itemSite ctx r) schema bounds removable).Runs p made q) :
    Recorded ctx S q.dataMap := by
  rcases runs_buildTuple h with ⟨-, rfl⟩ | ⟨tuple, parts, htuple, hm, -⟩
  · exact hp
  · refine runs_mapM (R := fun p _ q => Recorded ctx S p.dataMap → Recorded ctx S q.dataMap)
      ?_ ?_ hm hp
    · exact fun _ hp => hp
    · intro index hindex p part s parts q hpart hparts hp
      have hlt : index < tuple.length :=
        Nat.lt_of_lt_of_le (List.mem_range.mp hindex) (Nat.min_le_right _ _)
      refine hparts ?_
      rcases runs_buildTupleItem hpart with ⟨s', u, he, hi⟩ | ⟨mapped, hbuilt, -⟩
      · rw [instantiate_dataMap hi]
        exact ensureTemplate_records hb (.tuple hr hschema htuple hlt) hp he
      · exact hb (.fixed hr hschema htuple hlt) hp hbuilt

theorem buildList_records (hb : Records ctx S build) (hr : Comes ctx S r)
    (hschema : r.Reads ctx "array" schema) {keyword : String}
    (hkeyword : listKeyword? schema = some keyword) {bounds : ArrayBounds}
    (hp : Recorded ctx S p.dataMap)
    (h : (buildList ctx build r (itemSite ctx r) schema c bounds keyword nodes).Runs p made q) :
    Recorded ctx S q.dataMap := by
  obtain ⟨s₁, s₂, filled, count, u, he, hf, ha⟩ := runs_buildList h
  have hstored := ensureTemplate_records hb (.list _ hr hschema hkeyword) hp he
  have hfilled : s₂.dataMap = s₁.dataMap := by
    rcases runs_fillItems hf with ⟨-, rfl⟩ | ⟨t, more, -, hc, -⟩
    · rfl
    · obtain ⟨⟨last, rfl⟩, -⟩ := runs_copies hc
      rfl
  have hadded : q.dataMap = s₂.dataMap := by
    rcases runs_withAddControl ha with ⟨-, rfl⟩ | ⟨label, -, rfl⟩ <;> rfl
  rw [hadded, hfilled]
  exact hstored

theorem buildArray_records (hb : Records ctx S build) (ha : Answers ctx S r schema c)
    (ht : c.dataType = some "array") (hp : Recorded ctx S p.dataMap)
    (h : (buildArray ctx build r schema c).Runs p n q) : Recorded ctx S q.dataMap := by
  obtain ⟨site, items, made, s, hsite, htuple, -, s', rfl, h⟩ := runs_buildArray h
  obtain rfl : site = itemSite ctx r := hsite.trans (arraySite_eq ha.layoutPointer)
  have hreads := ha.reads ht
  have hitems := buildTuple_records hb ha.comes hreads hp htuple
  have hnoted := recorded_bounds hitems ha ht
  rcases h with ⟨-, -, rfl⟩ | ⟨keyword, hkeyword, hl⟩
  · exact hnoted
  · exact buildList_records hb ha.comes hreads hkeyword hnoted hl

theorem complete_records (hb : Records ctx S build) (ha : Answers ctx S r schema c)
    (hp : Recorded ctx S p.dataMap) {mapped : Mapped Node}
    (h : (complete ctx build r schema c).Runs p mapped q) : Recorded ctx S q.dataMap := by
  rcases runs_complete h with ⟨ht, children, hchildren, -⟩ | ⟨-, options, -, rfl⟩ |
      ⟨ht, n, hn, -⟩ | ⟨ht, made, hm, -⟩
  · rw [ha.layoutPointer] at hchildren
    exact buildProperties_records hb ha.comes (ha.reads ht) hp hchildren
  · exact hp
  · exact buildArray_records hb ha ht hp hn
  · obtain ⟨-, u, he⟩ := runs_buildReference hm
    exact ensureTemplate_records hb (.target _ ha.comes (ha.reads ht)) hp he

/-- Whatever the builder records is recorded for requests that come up. -/
theorem records_run : Records ctx S (run ctx) := by
  refine run_induction (P := Records ctx S) ?_ ?_
  · intro r p mapped q _ _ h
    exact absurd h not_runs_failure
  · intro build hb r p mapped q hr hp h
    rcases runs_buildOne h with ⟨-, rfl⟩ | ⟨schema, type, hschema, -, htype, hs⟩
    · exact hp
    · obtain ⟨id, s, hs, hc⟩ := runs_buildSchema hs
      have ha : Answers ctx S r schema (controlFor ctx r schema type id) :=
        ⟨hr, hschema, type, id, htype, rfl⟩
      have hsame : s.dataMap = p.dataMap := by
        rcases hs with ⟨-, -, rfl⟩ | ⟨-, -, rfl⟩ <;> rfl
      have hnoted := recorded_noted (hsame ▸ hp) ha (controlFor_dataPointer ctx r schema type id)
      exact complete_records hb ha hnoted hc

theorem whole_forField : ∀ r, Whole r → r.ForField ctx := by
  rintro r rfl
  exact ⟨[], [], _, .root, rfl, rfl⟩

end Generate

/-! ## Whole forms -/

namespace Form

open Generate

variable {options : FormOptions} {widgets : Registry} {schema data : Option Json} {form : Form}

/-- The data map of a whole form is recorded for requests that come up. -/
theorem whole_recorded (h : compile options widgets schema none data = .ok form) :
    Recorded form.setup Whole form.progress.dataMap := by
  obtain ⟨mapped, s, more, last, hrun, -, -, hprogress⟩ :=
    Compose.runs_wholeLayout (compile_whole h)
  have hs : Recorded form.setup Whole s.dataMap := by
    refine records_run (.start rfl) (fun key e he => ?_) hrun
    cases he
  rw [hprogress]
  exact hs

/-- The pointer is that of a field at another place of the data than the key it was recorded
under, or of one that is misread at its place. -/
def Displaced (form : Form) (key pointer : String) : Prop :=
  ∃ path place s, Schema.Field form.schema path place s ∧ pointer = Pointer.ofSegments path ∧
    key = form.setup.dataKey (form.setup.generic (Pointer.ofSegments place)) ∧
    (key ≠ Pointer.ofSegments place ∨ Schema.Misread form.schema path)

/-- **What an entry describes.**  The schema pointer of an entry leads to the schema of the
entry's key, unless it is displaced. -/
theorem entry_describes (h : compile options widgets schema none data = .ok form)
    {key pointer : String} {e : DataEntry}
    (he : Table.get? form.progress.dataMap key = some e) (hp : e.schemaPointer = some pointer)
    (hstays : ¬Displaced form key pointer) :
    ∃ s, Schema.atData? form.schema key = some s ∧
      form.setup.resolved.schemaAt? pointer = some s := by
  obtain ⟨r, ⟨hr, ht, hkey⟩, rfl⟩ := (whole_recorded h key e he).schemaPointer pointer hp
  obtain ⟨path, place, s, hfield, hpath, hplace⟩ := hr.field whole_forField ht
  rw [hplace] at hkey
  have hhome : key = Pointer.ofSegments place :=
    by_contra fun hkey' => hstays ⟨path, place, s, hfield, hpath, hkey, .inl hkey'⟩
  have hread : ¬Schema.Misread form.schema path :=
    fun hmisread => hstays ⟨path, place, s, hfield, hpath, hkey, .inr hmisread⟩
  have hlocated : Schema.locateFrom? form.schema place = some (.declared path s) :=
    hfield.located hread
  refine ⟨s, ?_, by rw [hpath, schemaAt?_of_field hfield]⟩
  rw [hhome, Schema.atData?, Schema.locate?, Pointer.segments?_ofSegments, Option.bind_some,
    hlocated]
  rfl

/-- A property of the schema itself is at its own key, unless its name is read as something
else. -/
theorem not_displaced_property {name : String} (hitems : name ≠ "items")
    (hadditional : name ≠ "additionalItems") (hname : Schema.isPosition name = false) :
    ¬Displaced form (Pointer.ofSegments [name]) (Pointer.ofSegments ["properties", name]) := by
  rintro ⟨path, place, s, hfield, hpath, -, haway⟩
  obtain rfl := Pointer.ofSegments_injective hpath
  have hbelow : Schema.Field form.schema ([] ++ ["properties", name]) place s := hfield
  obtain ⟨above, t, rfl, hroot⟩ := hbelow.of_property hitems hadditional
  obtain rfl := hroot.place_of_nil
  rcases haway with haway | hmisread
  · exact haway rfl
  · exact Schema.not_misread_property hname hmisread

/-- The keys and schema pointers of a schema's form, each with whether the schemas there
have properties. -/
def describedProperties (schema : Json) : List (String × String × Option Bool × Option Bool) :=
  match compile {} [] (some schema) none none with
  | .ok form => (Table.names form.progress.dataMap).filterMap fun key =>
      (Table.get? form.progress.dataMap key).bind fun e => e.schemaPointer.map fun pointer =>
        (key, pointer, (Schema.atData? form.schema key).map (·.has "properties"),
          (form.setup.resolved.schemaAt? pointer).map (·.has "properties"))
  | .error _ => []

theorem mem_describedProperties {schema : Json} {key pointer : String} {atKey there : Option Bool}
    (h : (key, pointer, atKey, there) ∈ describedProperties schema) :
    ∃ form e, compile {} [] (some schema) none none = .ok form ∧
      Table.get? form.progress.dataMap key = some e ∧ e.schemaPointer = some pointer ∧
      (Schema.atData? form.schema key).map (·.has "properties") = atKey ∧
      (form.setup.resolved.schemaAt? pointer).map (·.has "properties") = there := by
  unfold describedProperties at h
  split at h
  · next form hform =>
      obtain ⟨key', -, hentry⟩ := List.mem_filterMap.mp h
      obtain ⟨e, he, hmap⟩ := Option.bind_eq_some_iff.mp hentry
      obtain ⟨pointer', hp, heq⟩ := Option.map_eq_some_iff.mp hmap
      simp only [Prod.mk.injEq] at heq
      obtain ⟨rfl, rfl, hat, hthere⟩ := heq
      exact ⟨form, e, hform, he, hp, hat, hthere⟩
  · exact absurd h List.not_mem_nil

/-- A section with a name in it. -/
def sectionSchema : Json :=
  .obj [("type", .str "object"), ("properties", .obj [("tree", .obj [("type", .str "object"),
    ("properties", .obj [("name", .obj [("type", .str "string")])])])])]

theorem entry_describes_section :
    ∃ form e, compile {} [] (some sectionSchema) none none = .ok form ∧
      Table.get? form.progress.dataMap "/tree" = some e ∧
      e.schemaPointer = some "/properties/tree" ∧
      ¬Displaced form "/tree" "/properties/tree" ∧
      ∃ s, Schema.atData? form.schema "/tree" = some s ∧
        form.setup.resolved.schemaAt? "/properties/tree" = some s := by
  have hmem : ("/tree", "/properties/tree", some true, some true) ∈
      describedProperties sectionSchema := by
    decide +kernel
  obtain ⟨form, e, hform, he, hp, -, -⟩ := mem_describedProperties hmem
  have hkey : Pointer.ofSegments ["tree"] = "/tree" := by decide
  have hpath : Pointer.ofSegments ["properties", "tree"] = "/properties/tree" := by decide
  have hstays : ¬Displaced form "/tree" "/properties/tree" :=
    hkey ▸ hpath ▸ not_displaced_property (by decide) (by decide) (by decide)
  exact ⟨form, e, hform, he, hp, hstays, entry_describes hform he hp hstays⟩

/-- A section with a name and a section of the same kind in it. -/
def chainSchema : Json :=
  .obj [("type", .str "object"), ("properties", .obj [("tree", .obj [("type", .str "object"),
    ("properties", .obj [("name", .obj [("type", .str "string")]),
      ("next", .obj [("$ref", .str "#/properties/tree")])])])])]

/-- The entry of a section is the one of the reference within it. -/
theorem not_entry_describes :
    ∃ form e, compile {} [] (some chainSchema) none none = .ok form ∧
      Table.get? form.progress.dataMap "/tree" = some e ∧
      e.schemaPointer = some "/properties/tree/properties/next" ∧
      ¬∃ s, Schema.atData? form.schema "/tree" = some s ∧
        form.setup.resolved.schemaAt? "/properties/tree/properties/next" = some s := by
  have hmem : ("/tree", "/properties/tree/properties/next", some true, some false) ∈
      describedProperties chainSchema := by
    decide +kernel
  obtain ⟨form, e, hform, he, hp, hat, hthere⟩ := mem_describedProperties hmem
  refine ⟨form, e, hform, he, hp, ?_⟩
  rintro ⟨s, hs, hs'⟩
  rw [hs] at hat
  rw [hs'] at hthere
  exact absurd (hat.symm.trans hthere) (by decide)

end Form

end SchemaForm
