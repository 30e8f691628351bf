/-
Requests that fit a settled schema.

Every request that comes up in a settled schema is one for a field, under a data pointer with the
same shallowest equivalent as the place of the field (`Request.AtField`), or for a schema below
which nothing is moved (`Request.AtStill`), or its schema says nothing (`Request.Mute`).  What a
request asks for is of the same kind again.

Requests for fields ask for templates under finitely many names, two for every field (`names`),
and between two of them they go down the schema.  Below a place where nothing is moved they only
go down, except that the template of a reference is one of the reference itself, once.  So there
is a bound on how deep they nest, and it is below the one of the builder (`Fits.within`).
-/
import SchemaForm.Proofs.Json.Visits
import SchemaForm.Proofs.Layout.Returns
import SchemaForm.Proofs.Reference.Settled

namespace SchemaForm

namespace Json

/-! ## Sizes of parts -/

theorem size_lt_of_step? {j v : Json} {key : String} (h : j.step? key = some v) :
    v.size < j.size := by
  rw [step?_eq_get?] at h
  exact size_lt_of_mem_contents (Table.mem_of_get? h)

/-- So many steps lead to a value that is smaller by as many. -/
theorem size_add_length_le {j v : Json} {segments : List String}
    (h : j.follow? segments = some v) : v.size + segments.length ≤ j.size := by
  induction segments generalizing j with
  | nil =>
      obtain rfl := Option.some.inj h
      exact Nat.le_refl _
  | cons key rest ih =>
      obtain ⟨next, hstep, h⟩ := Option.bind_eq_some_iff.mp h
      have hlt := size_lt_of_step? hstep
      have hle := ih h
      rw [List.length_cons]
      omega

end Json

namespace Setup

/-- The segments of the shallowest equivalent of a data pointer. -/
def shallowest (ctx : Setup) (segments : List String) : List String :=
  Pointer.shallowest ctx.resolved.dataFolds ctx.resolved.arrays segments

end Setup

namespace Generate

open Pointer (ofSegments segments? wildcard)
open Schema (Field)

variable {ctx : Setup} {document : Json} {r r' : Request} {path place data : List String}
  {s t schema : Json} {key name layoutPointer : String} {known : List String} {c : Control}

/-! ## Names -/

/-- The name of the template for the place of a field. -/
def nameAt (ctx : Setup) (place : List String) : String := ofSegments (ctx.shallowest place)

/-- The name of the template for a fixed position. -/
def fixedNameAt (ctx : Setup) (place : List String) (index : Nat) : String :=
  (Pointer.dropEnd? wildcard (nameAt ctx (place ++ [wildcard]))).getD
    (nameAt ctx (place ++ [wildcard])) ++ Nat.repr index

/-- The names of the templates for a place: the one it has as a place of a field, and the one it
has as a fixed position. -/
def namesAt (ctx : Setup) (place : List String) : List String :=
  [nameAt ctx place,
    fixedNameAt ctx place.dropLast ((place.getLast?.bind Pointer.position?).getD 0)]

/-- The names under which requests for fields ask for templates. -/
def names (ctx : Setup) : List String :=
  ctx.schema.places.flatMap fun pointer =>
    (((segments? pointer).bind (Schema.dataSegments? ctx.schema)).map (namesAt ctx)).getD []

theorem length_names (ctx : Setup) : (names ctx).length ≤ 2 * ctx.schema.size := by
  rw [names, ← Json.length_places]
  induction ctx.schema.places with
  | nil => exact Nat.le_refl 0
  | cons pointer rest ih =>
      rw [List.flatMap_cons, List.length_append, List.length_cons]
      cases (segments? pointer).bind (Schema.dataSegments? ctx.schema) with
      | none =>
          rw [Option.map_none, Option.getD_none, List.length_nil]
          omega
      | some place =>
          rw [Option.map_some, Option.getD_some, namesAt, List.length_cons, List.length_singleton]
          omega

theorem namesAt_subset (hlegible : Schema.AllLegible ctx.schema)
    (hfield : Field ctx.schema path place s) : namesAt ctx place ⊆ names ctx := by
  intro name hname
  have hplace : ofSegments path ∈ ctx.schema.places :=
    Json.Stands.mem_places ⟨path, rfl, hfield.follow⟩
  refine List.mem_flatMap.mpr ⟨ofSegments path, hplace, ?_⟩
  rw [Pointer.segments?_ofSegments, Option.bind_some, hfield.dataSegments? hlegible,
    Option.map_some, Option.getD_some]
  exact hname

theorem nameAt_mem (hlegible : Schema.AllLegible ctx.schema)
    (hfield : Field ctx.schema path place s) : nameAt ctx place ∈ names ctx :=
  namesAt_subset hlegible hfield List.mem_cons_self

theorem fixedNameAt_mem {index : Nat} (hlegible : Schema.AllLegible ctx.schema)
    (hfield : Field ctx.schema path (place ++ [Nat.repr index]) s) :
    fixedNameAt ctx place index ∈ names ctx := by
  have hmem := namesAt_subset hlegible hfield (List.mem_cons_of_mem _ List.mem_cons_self)
  rw [List.dropLast_concat, List.getLast?_concat, Option.bind_some, Pointer.position?_repr,
    Option.getD_some] at hmem
  exact hmem

/-- The number of names that are not known yet. -/
def spare (ctx : Setup) (known : List String) : Nat :=
  ((names ctx).filter fun name => !known.contains name).length

theorem spare_le (ctx : Setup) (known : List String) : spare ctx known ≤ 2 * ctx.schema.size :=
  (List.length_filter_le _ _).trans (length_names ctx)

/-- One more known name is one less to come. -/
theorem spare_cons (hname : name ∈ names ctx) (hnew : name ∉ known) :
    spare ctx (name :: known) < spare ctx known := by
  have hfilter : ((names ctx).filter fun other => !(name :: known).contains other) =
      ((names ctx).filter fun other => !known.contains other).filter fun other =>
        !(other == name) := by
    rw [List.filter_filter]
    refine List.filter_congr fun other _ => ?_
    rw [List.contains_cons, Bool.not_or, Bool.and_comm]
  rw [spare, hfilter, spare]
  refine List.length_filter_lt_length_iff_exists.mpr ⟨name, List.mem_filter.mpr ⟨hname, ?_⟩, ?_⟩
  · simpa using hnew
  · simp

/-! ## Requests for fields -/

/-- The request is for the field at the path, under a data pointer with the shallowest equivalent
of the field's place. -/
structure Request.AtField (ctx : Setup) (r : Request) (path place : List String) (s : Json) :
    Prop where
  field : Field ctx.schema path place s
  schemaPointer : r.schemaPointer = ofSegments path
  full : ∃ full, segments? r.fullPointer = some full ∧ ctx.shallowest full = ctx.shallowest place
  data : ∃ data, segments? r.dataPointer = some data

/-- The request is for a schema at and below which nothing is moved. -/
structure Request.AtStill (ctx : Setup) (r : Request) (path : List String) (s : Json) : Prop where
  follow : ctx.schema.follow? path = some s
  schemaPointer : r.schemaPointer = ofSegments path
  still : ctx.resolved.Still path

/-- The schema of the request is no object, or there is none. -/
def Request.Mute (ctx : Setup) (r : Request) : Prop :=
  ∀ schema, ctx.resolved.schemaAt? r.schemaPointer = some schema → schema.obj? = none

theorem schemaAt?_of_follow (h : ctx.schema.follow? path = some s) :
    ctx.resolved.schemaAt? (ofSegments path) = some s := by
  have hat : ctx.resolved.schema.at? (ofSegments path) = some s := by
    rw [Json.at?_ofSegments]
    exact h
  rw [Resolved.schemaAt?, hat, Option.some_or]

theorem follow_properties {properties : Members}
    (hproperties : (s.get? "properties").bind Json.obj? = some properties)
    (ht : Table.get? properties key = some t) : s.follow? ["properties", key] = some t := by
  have hstep : (Json.obj properties).step? key = some t := ht
  rw [Schema.follow?_cons (Schema.step?_of_get? (Schema.get?_of_obj hproperties)),
    Schema.follow?_cons hstep]
  rfl

theorem follow_position {tuple : List Json} {index : Nat}
    (htuple : (s.get? "items").bind Json.arr? = some tuple) (ht : tuple[index]? = some t) :
    s.follow? ["items", Nat.repr index] = some t := by
  have hstep : (Json.arr tuple).step? (Nat.repr index) = some t := by
    rw [Json.step?, Pointer.position?_repr]
    exact ht
  rw [Schema.follow?_cons (Schema.step?_of_get? (Schema.get?_of_arr htuple)),
    Schema.follow?_cons hstep]
  rfl

theorem listKeyword?_cases {keyword : String} (h : listKeyword? s = some keyword) :
    (keyword = "items" ∧ ∃ members, s.get? "items" = some (.obj members)) ∨
      keyword = "additionalItems" ∧ ∃ tuple members, s.get? "items" = some (.arr tuple) ∧
        s.get? "additionalItems" = some (.obj members) := by
  unfold listKeyword? at h
  split at h
  · next tuple htuple =>
      split at h
      · next hadditional =>
          refine .inr ⟨(Option.some.inj h).symm, tuple, ?_⟩
          cases hget : s.get? "additionalItems" with
          | none =>
              rw [hget] at hadditional
              cases hadditional
          | some v =>
              rw [hget] at hadditional
              cases v with
              | obj members => exact ⟨members, htuple, rfl⟩
              | _ => cases hadditional
      · cases h
  · next members hitems => exact .inl ⟨(Option.some.inj h).symm, members, hitems⟩
  · cases h

/-- The list positions of a field are those of a field. -/
theorem field_list {keyword : String} (hfield : Field ctx.schema path place s)
    (h : listKeyword? s = some keyword) :
    ∃ t, Field ctx.schema (path ++ [keyword]) (place ++ [wildcard]) t := by
  rcases listKeyword?_cases h with ⟨rfl, members, hitems⟩ | ⟨rfl, tuple, members, htuple, hitems⟩
  · exact ⟨_, hfield.items hitems⟩
  · exact ⟨_, hfield.additional htuple hitems⟩

theorem follow_list {keyword : String} (h : listKeyword? s = some keyword) :
    ∃ t, s.follow? [keyword] = some t := by
  rcases listKeyword?_cases h with ⟨rfl, members, hitems⟩ | ⟨rfl, tuple, members, -, hitems⟩
  · exact ⟨_, Schema.follow?_cons (Schema.step?_of_get? hitems) []⟩
  · exact ⟨_, Schema.follow?_cons (Schema.step?_of_get? hitems) []⟩

theorem keyword_ofSegments {keyword : String} (h : listKeyword? s = some keyword)
    (path : List String) : ofSegments path ++ "/" ++ keyword = ofSegments (path ++ [keyword]) := by
  have hescape : Pointer.escape keyword = keyword := by
    rcases listKeyword?_cases h with ⟨rfl, -⟩ | ⟨rfl, -⟩ <;> decide
  rw [← Pointer.child_ofSegments, Pointer.child, hescape]

/-! ### One step for a field -/

theorem Request.AtField.schema_eq (hat : r.AtField ctx path place s)
    (hschema : ctx.resolved.schemaAt? r.schemaPointer = some schema) : schema = s := by
  rw [hat.schemaPointer, schemaAt?_of_follow hat.field.follow] at hschema
  exact (Option.some.inj hschema).symm

/-- What is below a field under the same key is for the field below. -/
theorem Request.AtField.below (hat : r.AtField ctx path place s) {step : List String}
    (hfield : Field ctx.schema (path ++ step) (place ++ [key]) t)
    (hschema : r'.schemaPointer = ofSegments (path ++ step)) (habove : r'.above = r.above)
    (hdata : r'.dataPointer = Pointer.child r.dataPointer key) :
    r'.AtField ctx (path ++ step) (place ++ [key]) t := by
  obtain ⟨full, hfull, hsame⟩ := hat.full
  obtain ⟨data, hread⟩ := hat.data
  refine ⟨hfield, hschema, ⟨full ++ [key], ?_, Pointer.shallowest_append hsame [key]⟩,
    data ++ [key], ?_⟩
  · rw [Request.fullPointer, habove, hdata, Pointer.append_child]
    exact Pointer.segments?_child hfull key
  · rw [hdata]
    exact Pointer.segments?_child hread key

theorem propertyRequest_schemaPointer (hr : r.schemaPointer = ofSegments path)
    (layoutPointer name : String) : (propertyRequest r layoutPointer name).schemaPointer =
      ofSegments (path ++ ["properties", name]) := by
  show Pointer.child (r.schemaPointer ++ "/properties") name = _
  rw [hr, Pointer.ofSegments_properties, Pointer.child_ofSegments, List.append_assoc]
  rfl

theorem position_ofSegments (hr : r.schemaPointer = ofSegments path) (index : Nat) :
    Pointer.item (r.schemaPointer ++ "/items") index =
      ofSegments (path ++ ["items", Nat.repr index]) := by
  rw [hr, Pointer.ofSegments_items, Pointer.item_ofSegments, List.append_assoc]
  rfl

/-- What is answered in place for a field is for a field further down. -/
theorem Request.AtField.held (hat : r.AtField ctx path place s) (hheld : r.Holds ctx r') :
    ∃ path' place' t, r'.AtField ctx path' place' t ∧ t.size + 2 ≤ s.size := by
  cases hheld with
  | @property schema properties name layoutPointer hschema hproperties hname =>
      obtain rfl := hat.schema_eq hschema
      obtain ⟨t, ht⟩ := mem_propertyNames hname
      have hpointer := propertyRequest_schemaPointer hat.schemaPointer layoutPointer name
      exact ⟨_, _, t, hat.below (hat.field.property hproperties ht) hpointer rfl rfl,
        Json.size_add_length_le (follow_properties hproperties ht)⟩
  | @fixed schema tuple index layoutPointer hschema htuple hindex =>
      obtain rfl := hat.schema_eq hschema
      have ht := List.getElem?_eq_getElem hindex
      exact ⟨_, _, _, hat.below (hat.field.position htuple ht)
        (position_ofSegments hat.schemaPointer index) rfl (Pointer.item_eq_child _ index),
        Json.size_add_length_le (follow_position htuple ht)⟩

/-! ### Templates for a field -/

/-- A template for a position of a field is for the field at the position. -/
theorem Request.AtField.itemTemplate (hat : r.AtField ctx path place s)
    {path' place' : List String} (hfield : Field ctx.schema path' place' t)
    (hplace : ctx.shallowest place' = ctx.shallowest (place ++ [key]))
    (hown : (siteAt ctx r layoutPointer).relative = false → ∀ data,
      segments? r.dataPointer = some data →
        ctx.shallowest (data ++ [key]) = ctx.shallowest (place ++ [key]))
    (kind : ItemKind) (removable : Bool) :
    (itemTemplate r (siteAt ctx r layoutPointer) kind removable (ofSegments path')
      (Pointer.child r.dataPointer key)).AtField ctx path' place' t := by
  obtain ⟨full, hfull, hsame⟩ := hat.full
  obtain ⟨data, hdata⟩ := hat.data
  have hchild := Pointer.segments?_child hdata key
  unfold Generate.itemTemplate
  cases hrelative : (siteAt ctx r layoutPointer).relative with
  | true =>
      refine ⟨hfield, rfl, ⟨full ++ [key], ?_, ?_⟩, [], rfl⟩
      · show segments? (r.above ++ Pointer.child r.dataPointer key ++ "") = _
        rw [String.append_empty, Pointer.append_child]
        exact Pointer.segments?_child hfull key
      · exact (Pointer.shallowest_append hsame [key]).trans hplace.symm
  | false =>
      refine ⟨hfield, rfl, ⟨data ++ [key], ?_, ?_⟩, data ++ [key], hchild⟩
      · show segments? ("" ++ Pointer.child r.dataPointer key) = _
        rw [String.empty_append]
        exact hchild
      · exact (hown hrelative data hdata).trans hplace.symm

section Settled

variable (hr : ctx.resolved.Settled) (h : Resolved.of? document = some ctx.resolved)

include hr h

theorem dataKey_of_segments? {pointer : String} (hp : segments? pointer = some data) :
    ctx.dataKey pointer = nameAt ctx data :=
  (hr.apart h).shorten_of_segments? hp

/-- The template of the items of a field is named after its list positions. -/
theorem Request.AtField.site_name (hat : r.AtField ctx path place s) :
    (siteAt ctx r layoutPointer).name = nameAt ctx (place ++ [wildcard]) := by
  obtain ⟨full, hfull, hsame⟩ := hat.full
  have hitem : segments? (Pointer.anyItem r.fullPointer) = some (full ++ [wildcard]) := by
    rw [Pointer.anyItem_eq_child]
    exact Pointer.segments?_child hfull wildcard
  show ctx.dataKey (Pointer.anyItem r.fullPointer) = _
  rw [dataKey_of_segments? hr h hitem]
  exact congrArg ofSegments (Pointer.shallowest_append hsame [wildcard])

/-- Where the template of the items is not relative the list positions of the field are those of
the data pointer. -/
theorem Request.AtField.own_site (hat : r.AtField ctx path place s)
    (hown : (siteAt ctx r layoutPointer).relative = false)
    (hdata : segments? r.dataPointer = some data) : ctx.shallowest (place ++ [wildcard]) =
      Pointer.genericSegments ctx.resolved.arrays [] data ++ [wildcard] := by
  have hname : (siteAt ctx r layoutPointer).name = Pointer.anyItem (ctx.generic r.dataPointer) :=
    bne_eq_false_iff_eq.mp hown
  have hgeneric : ctx.generic r.dataPointer =
      ofSegments (Pointer.genericSegments ctx.resolved.arrays [] data) := by
    rw [Setup.generic, Pointer.toGeneric, hdata]
  rw [hat.site_name hr h, hgeneric, Pointer.anyItem_ofSegments] at hname
  exact Pointer.ofSegments_injective hname

/-- The template for the list positions of a field. -/
theorem Request.AtField.list (hat : r.AtField ctx path place s) {keyword : String}
    (hkeyword : listKeyword? s = some keyword) (removable : Bool) :
    nameAt ctx (place ++ [wildcard]) ∈ names ctx ∧ ∃ path' place' t,
      (Generate.itemTemplate r (siteAt ctx r layoutPointer) .list removable
        (ctx.schemaKey (r.schemaPointer ++ "/" ++ keyword))
        (Pointer.anyItem r.dataPointer)).AtField ctx path' place' t := by
  obtain ⟨t, hfield⟩ := field_list hat.field hkeyword
  obtain ⟨path', place', t', hkey, hmoved, hplace⟩ := hr.exists_moved h hfield
  refine ⟨nameAt_mem hr.legible hfield, path', place', t', ?_⟩
  have hpointer : ctx.schemaKey (r.schemaPointer ++ "/" ++ keyword) = ofSegments path' := by
    rw [hat.schemaPointer, keyword_ofSegments hkeyword]
    exact hkey
  rw [hpointer, Pointer.anyItem_eq_child]
  refine hat.itemTemplate hmoved hplace (fun hown data hdata => ?_) .list removable
  -- What the template is named after is the shallowest equivalent of the position itself.
  have hapart := hr.apart h
  have hsite := hat.own_site hr h hown hdata
  have hgeneric : Pointer.genericSegments ctx.resolved.arrays [] data ++ [wildcard] =
      Pointer.genericSegments ctx.resolved.arrays [] (data ++ [wildcard]) := by
    rw [Pointer.genericSegments_concat_eq, Pointer.genericSegment_wildcard]
  calc ctx.shallowest (data ++ [wildcard])
      = ctx.shallowest (Pointer.genericSegments ctx.resolved.arrays [] (data ++ [wildcard])) :=
        (hapart.shallowest_generic _).symm
    _ = ctx.shallowest (ctx.shallowest (place ++ [wildcard])) := by rw [hsite, hgeneric]
    _ = ctx.shallowest (place ++ [wildcard]) := hapart.shallowest_idem _

/-- The template for a fixed position of a field. -/
theorem Request.AtField.tuple (hat : r.AtField ctx path place s) {tuple : List Json} {index : Nat}
    (htuple : (s.get? "items").bind Json.arr? = some tuple) (hindex : index < tuple.length) :
    tupleName (siteAt ctx r layoutPointer) index ∈ names ctx ∧ ∃ path' place' t,
      (Generate.itemTemplate r (siteAt ctx r layoutPointer) .tuple true
        (Pointer.item (r.schemaPointer ++ "/items") index)
        (Pointer.item r.dataPointer index)).AtField ctx path' place' t := by
  have hfield := hat.field.position htuple (List.getElem?_eq_getElem hindex)
  constructor
  · rw [tupleName, hat.site_name hr h]
    exact fixedNameAt_mem hr.legible hfield
  · refine ⟨path ++ ["items", Nat.repr index], place ++ [Nat.repr index], tuple[index], ?_⟩
    rw [position_ofSegments hat.schemaPointer, Pointer.item_eq_child]
    refine hat.itemTemplate hfield rfl (fun hown data hdata => ?_) .tuple true
    -- No rule is for the list positions beside, so the places of the arrays are the same too.
    refine Pointer.shallowest_append ?_ _
    have hapart := hr.apart h
    have hsite := hat.own_site hr h hown hdata
    have hbeside : ctx.shallowest (place ++ [wildcard]) = ctx.shallowest place ++ [wildcard] := by
      obtain ⟨first, rest, rfl⟩ := List.exists_cons_of_length_pos (Nat.zero_lt_of_lt hindex)
      rw [Setup.shallowest, Pointer.shallowest_concat, Pointer.genericSegment_wildcard]
      exact hapart.climb_of_not_moves fun target =>
        hr.beside _ _ _ _ _ target hat.field (Schema.get?_of_arr htuple)
    have hplace : ctx.shallowest place = Pointer.genericSegments ctx.resolved.arrays [] data :=
      (List.append_inj' (hbeside.symm.trans hsite) rfl).1
    calc ctx.shallowest data
        = ctx.shallowest (Pointer.genericSegments ctx.resolved.arrays [] data) :=
          (hapart.shallowest_generic _).symm
      _ = ctx.shallowest (ctx.shallowest place) := by rw [hplace]
      _ = ctx.shallowest place := hapart.shallowest_idem _

/-- The template for the target of a field. -/
theorem Request.AtField.target (hat : r.AtField ctx path place s) (c : Control) :
    ctx.dataKey r.fullPointer ∈ names ctx ∧
      ∃ path' place' t, (targetRequest ctx r c).AtField ctx path' place' t := by
  obtain ⟨full, hfull, hsame⟩ := hat.full
  obtain ⟨path', place', t, hkey, hmoved, hplace⟩ := hr.exists_moved h hat.field
  constructor
  · have hname : ctx.dataKey r.fullPointer = nameAt ctx place := by
      rw [dataKey_of_segments? hr h hfull]
      exact congrArg ofSegments hsame
    exact hname ▸ nameAt_mem hr.legible hat.field
  · refine ⟨path', place', t, hmoved, ?_, ⟨full, ?_, hsame.trans hplace.symm⟩, [], rfl⟩
    · show ctx.schemaKey r.schemaPointer = ofSegments path'
      rw [hat.schemaPointer]
      exact hkey
    · show segments? (r.fullPointer ++ "") = some full
      rw [String.append_empty]
      exact hfull

/-- A template that is asked for a field is for a field, under one of the names. -/
theorem Request.AtField.asked (hat : r.AtField ctx path place s) (hasked : r.Asks ctx name r') :
    name ∈ names ctx ∧ ∃ path' place' t, r'.AtField ctx path' place' t := by
  cases hasked with
  | tuple layoutPointer hschema htuple hindex =>
      obtain rfl := hat.schema_eq hschema
      exact hat.tuple hr h htuple hindex
  | list layoutPointer removable hschema hkeyword =>
      obtain rfl := hat.schema_eq hschema
      rw [hat.site_name hr h]
      exact hat.list hr h hkeyword removable
  | target c hschema htype => exact hat.target hr h c

end Settled

/-! ## Requests where nothing is moved -/

theorem Request.AtStill.schema_eq (hat : r.AtStill ctx path s)
    (hschema : ctx.resolved.schemaAt? r.schemaPointer = some schema) : schema = s := by
  rw [hat.schemaPointer, schemaAt?_of_follow hat.follow] at hschema
  exact (Option.some.inj hschema).symm

theorem Request.AtStill.below (hat : r.AtStill ctx path s) {step : List String}
    (ht : s.follow? step = some t) (hschema : r'.schemaPointer = ofSegments (path ++ step)) :
    r'.AtStill ctx (path ++ step) t :=
  ⟨Schema.follow?_concat hat.follow ht, hschema, hat.still.of_prefix (List.prefix_append _ _)⟩

theorem Request.AtStill.held (hat : r.AtStill ctx path s) (hheld : r.Holds ctx r') :
    ∃ path' t, r'.AtStill ctx path' t ∧ t.size + 2 ≤ s.size := by
  cases hheld with
  | @property schema properties name layoutPointer hschema hproperties hname =>
      obtain rfl := hat.schema_eq hschema
      obtain ⟨t, ht⟩ := mem_propertyNames hname
      have hfollow := follow_properties hproperties ht
      exact ⟨_, t, hat.below hfollow (propertyRequest_schemaPointer hat.schemaPointer _ name),
        Json.size_add_length_le hfollow⟩
  | @fixed schema tuple index layoutPointer hschema htuple hindex =>
      obtain rfl := hat.schema_eq hschema
      have hfollow := follow_position htuple (List.getElem?_eq_getElem hindex)
      exact ⟨_, _, hat.below hfollow (position_ofSegments hat.schemaPointer index),
        Json.size_add_length_le hfollow⟩

/-- A template that is asked for is for a smaller schema, or for the same one under the same data
pointer, which it is named after. -/
theorem Request.AtStill.asked (hat : r.AtStill ctx path s) (hasked : r.Asks ctx name r') :
    (∃ path' t, r'.AtStill ctx path' t ∧ t.size < s.size) ∨
      r'.AtStill ctx path s ∧ name = ctx.dataKey r.fullPointer ∧
        r'.fullPointer = r.fullPointer := by
  cases hasked with
  | @tuple schema tuple index layoutPointer hschema htuple hindex =>
      obtain rfl := hat.schema_eq hschema
      have hfollow := follow_position htuple (List.getElem?_eq_getElem hindex)
      have hsize := Json.size_add_length_le hfollow
      exact .inl ⟨_, _, hat.below hfollow (position_ofSegments hat.schemaPointer index),
        lt_of_lt_of_le (Nat.lt_add_of_pos_right Nat.two_pos) hsize⟩
  | @list schema keyword layoutPointer removable hschema hkeyword =>
      obtain rfl := hat.schema_eq hschema
      obtain ⟨t, hfollow⟩ := follow_list hkeyword
      refine .inl ⟨_, t, hat.below hfollow ?_, Json.size_add_length_le hfollow⟩
      show ctx.schemaKey (r.schemaPointer ++ "/" ++ keyword) = _
      rw [hat.schemaPointer, keyword_ofSegments hkeyword]
      exact hat.still _ t (List.prefix_append _ _) (Schema.follow?_concat hat.follow hfollow)
  | @target schema c hschema htype =>
      refine .inr ⟨⟨hat.follow, ?_, hat.still⟩, rfl, String.append_empty⟩
      show ctx.schemaKey r.schemaPointer = _
      rw [hat.schemaPointer]
      exact hat.still path s List.prefix_rfl hat.follow

/-! ## Requests that fit -/

/-- The request is for a field, or below it nothing is moved, or its schema says nothing. -/
inductive Request.Fits (ctx : Setup) (r : Request) : Prop
  | field {path place : List String} {s : Json} : r.AtField ctx path place s → Fits ctx r
  | still {path : List String} {s : Json} : r.AtStill ctx path s → Fits ctx r
  | mute : r.Mute ctx → Fits ctx r

theorem get?_of_obj?_none (hs : s.obj? = none) (key : String) : s.get? key = none := by
  cases s with
  | obj members => cases hs
  | _ => rfl

theorem Request.Mute.not_held (hmute : r.Mute ctx) : ¬r.Holds ctx r' := by
  rintro (⟨-, hschema, hproperties, -⟩ | ⟨-, hschema, htuple, -⟩)
  · rw [get?_of_obj?_none (hmute _ hschema)] at hproperties
    cases hproperties
  · rw [get?_of_obj?_none (hmute _ hschema)] at htuple
    cases htuple

theorem Request.Mute.not_asked (hmute : r.Mute ctx) : ¬r.Asks ctx name r' := by
  rintro (⟨-, hschema, htuple, -⟩ | ⟨-, -, hschema, hkeyword⟩ | ⟨-, hschema, htype⟩)
  · rw [get?_of_obj?_none (hmute _ hschema)] at htuple
    cases htuple
  · rw [listKeyword?, get?_of_obj?_none (hmute _ hschema)] at hkeyword
    cases hkeyword
  · rw [dataType?, Schema.typeName?, Json.has, get?_of_obj?_none (hmute _ hschema),
      get?_of_obj?_none (hmute _ hschema)] at htype
    cases htype

theorem Request.Fits.held (hfits : r.Fits ctx) (hheld : r.Holds ctx r') : r'.Fits ctx := by
  cases hfits with
  | field hat =>
      obtain ⟨path', place', t, hat', -⟩ := hat.held hheld
      exact .field hat'
  | still hat =>
      obtain ⟨path', t, hat', -⟩ := hat.held hheld
      exact .still hat'
  | mute hmute => exact absurd hheld hmute.not_held

/-! ## Bounds -/

/-- Requests for fields nest no deeper than the names that are left, and the schema below each of
them, allow. -/
theorem Request.AtField.within (hr : ctx.resolved.Settled)
    (h : Resolved.of? document = some ctx.resolved) {depth : Nat}
    (hat : r.AtField ctx path place s)
    (hdepth : spare ctx known * (ctx.schema.size + 2) + s.size + 2 ≤ 2 * depth) :
    Within ctx depth known r := by
  induction depth generalizing r path place s known with
  | zero => omega
  | succ depth ih =>
      refine ⟨fun r' hheld => ?_, fun name r' hasked => ?_⟩
      · obtain ⟨path', place', t, hat', hsize⟩ := hat.held hheld
        exact ih hat' (by omega)
      · obtain ⟨hname, path', place', t, hat'⟩ := hat.asked hr h hasked
        by_cases hknown : name ∈ known
        · exact .inl hknown
        · have hle := Json.size_add_length_le hat'.field.follow
          have hspare := Nat.mul_le_mul_right (ctx.schema.size + 2) (spare_cons hname hknown)
          rw [Nat.succ_mul] at hspare
          exact .inr (ih hat' (by omega))

/-- Where nothing is moved requests nest no deeper than twice the size of the schema. -/
theorem Request.AtStill.within {depth : Nat} (hat : r.AtStill ctx path s)
    (hdepth : 2 * s.size + (if ctx.dataKey r.fullPointer ∈ known then 0 else 1) ≤ depth) :
    Within ctx depth known r := by
  induction depth generalizing r path s known with
  | zero =>
      have hpos := s.size_pos
      omega
  | succ depth ih =>
      have hone : ∀ (r' : Request) (known : List String),
          (if ctx.dataKey r'.fullPointer ∈ known then 0 else 1) ≤ 1 := by
        intro r' known
        split
        · exact Nat.zero_le 1
        · exact Nat.le_refl 1
      refine ⟨fun r' hheld => ?_, fun name r' hasked => ?_⟩
      · obtain ⟨path', t, hat', hsize⟩ := hat.held hheld
        have hle := hone r' known
        exact ih hat' (by omega)
      · rcases hat.asked hasked with ⟨path', t, hat', hsize⟩ | ⟨hat', rfl, hfull⟩
        · have hle := hone r' (name :: known)
          exact .inr (ih hat' (by omega))
        · by_cases hknown : ctx.dataKey r.fullPointer ∈ known
          · exact .inl hknown
          · rw [if_neg hknown] at hdepth
            refine .inr (ih hat' ?_)
            rw [hfull, if_pos List.mem_cons_self]
            omega

/-- **Requests that fit nest within the depth of the builder.** -/
theorem Request.Fits.within (hr : ctx.resolved.Settled)
    (h : Resolved.of? document = some ctx.resolved) (hfits : r.Fits ctx) {depth : Nat}
    (hdepth : depthLimit ctx ≤ depth) : Within ctx depth [] r := by
  have hlimit : (ctx.schema.size + 2) * (ctx.schema.size + 2) ≤ depth := by
    refine le_trans (Nat.mul_le_mul ?_ ?_) hdepth <;> omega
  rw [Nat.mul_add, Nat.add_mul] at hlimit
  cases hfits with
  | field hat =>
      have hsize := Json.size_add_length_le hat.field.follow
      have hspare := Nat.mul_le_mul_right (ctx.schema.size + 2) (spare_le ctx [])
      rw [Nat.mul_add, Nat.mul_assoc, Nat.mul_add] at hspare
      refine hat.within hr h ?_
      rw [Nat.mul_add]
      omega
  | still hat =>
      have hsize := Json.size_add_length_le hat.follow
      refine hat.within ?_
      rw [if_neg List.not_mem_nil]
      omega
  | mute hmute =>
      cases depth with
      | zero => omega
      | succ depth =>
          exact ⟨fun r' hheld => absurd hheld hmute.not_held,
            fun name r' hasked => absurd hasked hmute.not_asked⟩

end Generate

end SchemaForm
