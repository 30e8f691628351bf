/-
Forms of settled schemas.

The requests that a layout starts with fit its schema: the one for the whole schema, and those for
entries that are bound to data, whether their schema is found for the data (`found_fits`) or was
recorded for it by a request that came up before (`Arises.fits`).  So generating from them returns
(`Request.Fits.within`), and every other step of composing a layout is a fixed number of steps.
Hence a form of a settled schema is built, whatever the description, the data, the options and the
widgets are (`Form.build_settled`).

It is not so for every schema: where two references describe the same data only one of them has a
data rule, and below the other one no name repeats (`Form.not_built`).
-/
import SchemaForm.Proofs.Layout.Endless
import SchemaForm.Proofs.Layout.Fitting
import SchemaForm.Proofs.Layout.Stored

namespace SchemaForm

namespace Build

variable {α β : Type} {p : Progress} {m : Build α}

/-- Started with the progress the computation ends. -/
def Ends (p : Progress) (m : Build α) : Prop := ∃ a q, m.Runs p a q

theorem Ends.pure (a : α) : Ends p (pure a : Build α) := ⟨a, p, runs_pure.mpr ⟨rfl, rfl⟩⟩

theorem Ends.bind {f : α → Build β} (hm : Ends p m) (hf : ∀ a q, m.Runs p a q → Ends q (f a)) :
    Ends p (m >>= f) := by
  obtain ⟨a, s, ha⟩ := hm
  obtain ⟨b, q, hb⟩ := hf a s ha
  exact ⟨b, q, runs_bind.mpr ⟨a, s, ha, hb⟩⟩

theorem Returns.ends (h : Returns [] m) (p : Progress) : Ends p m := by
  obtain ⟨a, q, hrun, -⟩ := h p fun name hname => absurd hname List.not_mem_nil
  exact ⟨a, q, hrun⟩

end Build

open Build

namespace Generate

open Pointer (ofSegments segments?)

variable {ctx : Setup} {document : Json} {S : Request → Prop} {r : Request} {c : Control}
  {p : Progress} {pointer : String} {path : List String}

/-! ## Requests that a layout starts with -/

/-- A request is mute where the schema holds no object, or nothing and the library neither. -/
theorem mute_of_follow (hpointer : r.schemaPointer = ofSegments path)
    (hfollow : ∀ v, ctx.schema.follow? path = some v → v.obj? = none)
    (hlibrary : ctx.schema.follow? path = none →
      Table.get? ctx.resolved.library (ofSegments path) = none) : r.Mute ctx := by
  intro schema hschema
  have hnormal : Pointer.normalize (ofSegments path) = ofSegments path :=
    Pointer.normalize_of_segments? (Pointer.segments?_ofSegments path)
  rw [hpointer, Resolved.schemaAt?, Json.at?_ofSegments, hnormal] at hschema
  cases hfound : ctx.schema.follow? path with
  | some v =>
      rw [show ctx.resolved.schema.follow? path = some v from hfound, Option.some_or] at hschema
      exact Option.some.inj hschema ▸ hfollow v hfound
  | none =>
      rw [show ctx.resolved.schema.follow? path = none from hfound, Option.none_or,
        hlibrary hfound] at hschema
      cases hschema

theorem tupleRequest_above (r : Request) (site : ArraySite) (index : Nat) :
    (tupleRequest r site index).above = r.above := by
  unfold tupleRequest Request.within
  rfl

/-- Outside of templates requests fit as the starting ones do, and no template is above them. -/
theorem Comes.fits (hS : ∀ s, S s → s.Fits ctx ∧ s.above = "") (hcomes : Comes ctx S r)
    (htemplate : r.inTemplate = false) : r.Fits ctx ∧ r.above = "" := by
  induction hcomes with
  | start hs => exact hS _ hs
  | property _ hschema hproperties hname ih =>
      obtain ⟨hfits, habove⟩ := ih htemplate
      exact ⟨hfits.held (.property _ hschema.found hproperties hname), habove⟩
  | @fixed r schema tuple index _ hschema htuple hindex ih =>
      rw [tupleRequest_inTemplate] at htemplate
      obtain ⟨hfits, habove⟩ := ih htemplate
      have hheld : r.Holds ctx (tupleRequest r (itemSite ctx r) index) :=
        .fixed r.layout hschema.found htuple hindex
      have hsame := tupleRequest_above r (itemSite ctx r) index
      exact ⟨hfits.held hheld, hsame.trans habove⟩
  | tuple => cases htemplate
  | list => cases htemplate
  | target => cases htemplate

section Settled

variable (hr : ctx.resolved.Settled) (h : Resolved.of? document = some ctx.resolved)

include hr h

/-- A text that is shortened to a pointer is one. -/
theorem exists_segments {text : String} {place : List String}
    (hkey : segments? (ctx.dataKey text) = some place) :
    ∃ data, segments? text = some data ∧ ctx.shallowest data = place := by
  cases hdata : segments? text with
  | none =>
      have hsame : ctx.dataKey text = text := (hr.apart h).shorten_of_none hdata
      rw [hsame, hdata] at hkey
      cases hkey
  | some data =>
      rw [dataKey_of_segments? hr h hdata, nameAt, Pointer.segments?_ofSegments] at hkey
      exact ⟨data, rfl, Option.some.inj hkey⟩

/-- The request for the field at a place is at the field, under a data pointer of the same name. -/
theorem atField_of_key {place : List String} {s : Json}
    (hfield : Schema.Field ctx.schema path place s)
    (hkey : ctx.dataKey (c.dataPointer.getD "") = nameAt ctx place) :
    (boundRequest (ofSegments path) c).AtField ctx path place s := by
  have hread : segments? (ctx.dataKey (c.dataPointer.getD "")) = some (ctx.shallowest place) := by
    rw [hkey, nameAt, Pointer.segments?_ofSegments]
  obtain ⟨data, hdata, hsame⟩ := exists_segments hr h hread
  refine ⟨hfield, rfl, ⟨data, ?_, hsame⟩, data, hdata⟩
  show segments? ("" ++ c.dataPointer.getD "") = some data
  rw [String.empty_append]
  exact hdata

/-- The schema that is found for the data of a control fits. -/
theorem found_fits (hfound : Schema.pointerOfData? ctx.schema
    (ctx.dataKey (c.dataPointer.getD "")) = some pointer) : (boundRequest pointer c).Fits ctx := by
  have hapart := hr.apart h
  obtain ⟨found, hlocated, rfl⟩ := Option.map_eq_some_iff.mp hfound
  obtain ⟨place, hplace, hlocated⟩ := Option.bind_eq_some_iff.mp hlocated
  have hlibrary := hr.unnamed place found hlocated
  have hstands := Schema.found_stands hlocated
  cases found with
  | free path => exact .mute (mute_of_follow rfl hstands hlibrary)
  | declared path s =>
      rcases hstands with hfollow | hnone
      · obtain ⟨data, hdata, rfl⟩ := exists_segments hr h hplace
        rcases hr.located h (hapart.genericSegments_shallowest data) hlocated with hfield | hstill
        · refine .field (atField_of_key hr h hfield ((dataKey_of_segments? hr h hdata).trans ?_))
          exact congrArg ofSegments (hapart.shallowest_idem data).symm
        · exact .still ⟨hfollow, rfl, hstill⟩
      · have hempty : ∀ v, ctx.schema.follow? path = some v → v.obj? = none := by
          intro v hv
          rw [hnone] at hv
          cases hv
        exact .mute (mute_of_follow rfl hempty hlibrary)

/-- The schema that a request recorded for the data of a control fits, if the request does. -/
theorem recorded_fits (hfits : r.Fits ctx) (habove : r.above = "")
    (hkey : ctx.dataKey (c.dataPointer.getD "") = ctx.dataKey (ctx.generic r.dataPointer)) :
    (boundRequest r.schemaPointer c).Fits ctx := by
  cases hfits with
  | @field path place s hat =>
      obtain ⟨full, hfull, hsame⟩ := hat.full
      have hdata : segments? r.dataPointer = some full := by
        rwa [Request.fullPointer, habove, String.empty_append] at hfull
      have hgeneric : segments? (ctx.generic r.dataPointer) =
          some (Pointer.genericSegments ctx.resolved.arrays [] full) := by
        rw [Setup.generic, Pointer.toGeneric, hdata]
        exact Pointer.segments?_ofSegments _
      rw [hat.schemaPointer]
      refine .field (atField_of_key hr h hat.field (hkey.trans ?_))
      rw [dataKey_of_segments? hr h hgeneric]
      exact congrArg ofSegments (((hr.apart h).shallowest_generic full).trans hsame)
  | still hat => exact .still ⟨hat.follow, hat.schemaPointer, hat.still⟩
  | mute hmute => exact .mute hmute

/-- **Every request that a layout starts with fits.** -/
theorem Arises.fits (harises : Arises ctx r) : r.Fits ctx ∧ r.above = "" := by
  induction harises with
  | whole layoutPointer =>
      exact ⟨.field ⟨.root, rfl, ⟨[], rfl, rfl⟩, [], rfl⟩, rfl⟩
  | found hfound => exact ⟨found_fits hr h hfound, rfl⟩
  | recorded _ hdescribes ih =>
      obtain ⟨hcomes, htemplate, hkey⟩ := hdescribes
      obtain ⟨hfits, habove⟩ := hcomes.fits ih htemplate
      exact ⟨recorded_fits hr h hfits habove hkey, rfl⟩

theorem wholeSchema_returns (layoutPointer : String) : Returns [] (wholeSchema ctx layoutPointer) :=
  ((Arises.whole layoutPointer).fits hr h).1.within hr h (Nat.le_refl _) |>.returns

end Settled

end Generate

namespace Compose

open Generate (LeadsAll Sound boundRequest)

variable {ctx : Setup} {document : Json} {p : Progress} {g : Grouping} {array : Control}
  {bounds : ArrayBounds} {existing : Nat} {n : Node} {known : List String}

/-! ## Items of arrays -/

theorem regroup_returns (removable : Bool) (children : List Node) :
    Returns known (regroup ctx g removable bounds children) := by
  simp only [regroup]
  split
  · exact .pure _
  · exact returns_newId.bind fun _ => .pure _

theorem asItems_returns (children : List Node) :
    Returns known (asItems ctx g array bounds children) := by
  unfold asItems
  split
  · exact .pure _
  · exact regroup_returns _ _

theorem storeOffered_returns (name : String) (addable : Bool) (offered : Option Template) :
    Returns known (storeOffered name addable offered) := by
  intro p _
  cases hstores : addable && !p.templates.knows name with
  | false =>
      refine ⟨(), p, ?_, .refl _⟩
      simp only [storeOffered, runs_bind, runs_get]
      refine ⟨p, p, ⟨rfl, rfl⟩, ?_⟩
      rw [hstores, if_neg Bool.false_ne_true]
      exact runs_pure.mpr ⟨rfl, rfl⟩
  | true =>
      have hnew : p.templates.knows name = false := by
        rw [Bool.and_eq_true_iff, Bool.not_eq_true'] at hstores
        exact hstores.2
      cases offered with
      | none =>
          refine ⟨(), p, ?_, .refl _⟩
          simp only [storeOffered, runs_bind, runs_get]
          refine ⟨p, p, ⟨rfl, rfl⟩, ?_⟩
          rw [hstores, if_pos rfl]
          exact runs_pure.mpr ⟨rfl, rfl⟩
      | some t =>
          refine ⟨(), { p with templates := p.templates.store name t }, ?_, .store hnew t⟩
          simp only [storeOffered, runs_bind, runs_get]
          refine ⟨p, p, ⟨rfl, rfl⟩, ?_⟩
          rw [hstores, if_pos rfl]
          exact runs_onTemplates.mpr rfl

theorem fillFrom_returns (dataPointer name : String) (t : Template) (items : List Node) :
    Returns known (fillFrom ctx g array bounds existing dataPointer name t items) := by
  refine (returns_copies _ _ _).bind fun more => ?_
  dsimp only
  split
  · exact .pure _
  · exact returns_newId.bind fun _ => .pure _

theorem fillArray_returns (dataPointer : String) (items : List Node) :
    Returns known (fillArray ctx g array bounds existing dataPointer items) := by
  refine (storeOffered_returns _ _ _).bind fun _ => returns_get.bind fun p => ?_
  split
  · exact .pure _
  · exact fillFrom_returns _ _ _ _

theorem expandArray_returns (bounds : ArrayBounds) (existing : Nat) (n : Node) :
    Returns known (expandArray ctx bounds existing n) :=
  (returns_note _ _).bind fun _ => (asItems_returns _).bind fun _ =>
    (fillArray_returns _ _).bind fun _ => .pure _

/-! ## Bound entries -/

theorem schemaPointerFor_returns (key : String) : Returns known (schemaPointerFor ctx key) := by
  refine returns_get.bind fun p => ?_
  split
  · exact .pure _
  · exact (returns_note _ _).bind fun _ => .pure _

theorem bindToSchema_returns (key schemaPointer : String) (schema : Json) (c : Control) :
    Returns known (bindToSchema ctx key schemaPointer schema c) := by
  refine (returns_note _ _).bind fun _ => ?_
  split
  · exact returns_noteRequired.bind fun _ => .pure _
  · exact .pure _

theorem describeBound_returns (key : String) (schemaPointer : Option String) (c : Control) :
    Returns known (describeBound ctx key schemaPointer c) := by
  unfold describeBound
  split
  · exact bindToSchema_returns _ _ _ _
  · exact .pure _

section Settled

variable (hr : ctx.resolved.Settled) (h : Resolved.of? document = some ctx.resolved)

include hr h

/-- Expanding a bound control ends if the schema pointer leads to its data. -/
theorem expandBound_ends {c : Control} {pointer : String}
    (hleads : Generate.Leads ctx (ctx.dataKey (c.dataPointer.getD "")) pointer)
    (hc : ∀ schema, ctx.resolved.schemaAt? pointer = some schema →
      c.dataType = Generate.dataType? schema) (p : Progress) :
    Ends p (Generate.expandBound ctx pointer c) := by
  have hfits := (hleads.arises.fits hr h).1
  exact (Generate.expandBound_returns (hfits.within hr h (Nat.le_succ _)) hc).ends p

/-- **A bound node is laid out**, if what has been recorded leads to the data. -/
theorem bindNode_ends (isContainer : Bool) (n : Node) (hp : LeadsAll ctx p.dataMap) :
    Ends p (bindNode ctx isContainer n) := by
  unfold bindNode
  dsimp only
  refine .bind ((schemaPointerFor_returns _).ends p) fun found s hfound => ?_
  obtain ⟨-, hleads⟩ := Generate.schemaPointerFor_leads hp hfound
  refine .bind ((returns_note _ _).ends s) fun _ s _ => ?_
  refine .bind ((describeBound_returns _ _ _).ends s) fun made s' hmade => ?_
  obtain ⟨c, bounds⟩ := made
  obtain ⟨hdescribes, -, htyped, -⟩ := runs_describeBound hmade
  refine .bind ((returns_note _ _).ends s') fun _ s' _ => ?_
  unfold fillBound
  split
  · split
    · exact (expandArray_returns _ _ _).ends s'
    · exact .pure _
  · split
    · next pointer =>
        refine expandBound_ends hr h ?_ (fun schema hschema => ?_) s'
        · show Generate.Leads ctx (ctx.dataKey (c.dataPointer.getD "")) pointer
          rw [hdescribes.dataPointer]
          exact hleads pointer rfl
        · exact htyped pointer schema rfl hschema
    · exact .pure _

/-! ## Entries -/

theorem composeEntry_ends (item : Json) (children : Option (List Node)) (pointer : String)
    (hp : LeadsAll ctx p.dataMap) : Ends p (composeEntry ctx item children pointer) := by
  refine .bind (returns_newId.ends p) fun id s hs => ?_
  obtain ⟨-, rfl⟩ := runs_newId.mp hs
  split
  · exact .pure _
  · dsimp only
    split
    · exact (Generate.wholeSchema_returns hr h _).ends _
    · exact .bind (bindNode_ends hr h _ _ hp) fun _ _ _ => .pure _
    · exact .pure _

end Settled

mutual

/-- Composing an entry ends if what has been built before is as it should be. -/
theorem entry_ends (hr : ctx.resolved.Settled) (h : Resolved.of? document = some ctx.resolved)
    (entry : Entry) {above : String} {index depth : Nat} {p : Progress}
    (habove : Pointer.anyItem (Pointer.genericLayout above) = Pointer.level depth)
    (hp : Sound ctx True p []) : Ends p (Entry.map (step ctx) above index entry) := by
  match entry with
  | .leaf item => exact composeEntry_ends hr h item none _ hp.leads
  | .branch item children =>
      have hbelow : Pointer.anyItem (Pointer.genericLayout (Pointer.item above index ++ "/items")) =
          Pointer.level (depth + 1) := by
        rw [Pointer.genericLayout_items, Pointer.genericLayout_item, habove]
        rfl
      refine .bind (entries_ends hr h children hbelow hp) fun built s hbuilt => ?_
      have hsound := (entries_brings children hbelow (fun _ => trivial) hp hbuilt).sound hp
      exact composeEntry_ends hr h item (some built) _ hsound.leads

theorem entries_ends (hr : ctx.resolved.Settled) (h : Resolved.of? document = some ctx.resolved)
    (entries : List Entry) {above : String} {index depth : Nat} {p : Progress}
    (habove : Pointer.anyItem (Pointer.genericLayout above) = Pointer.level depth)
    (hp : Sound ctx True p []) : Ends p (Entry.mapAll (step ctx) above index entries) := by
  match entries with
  | [] => exact .pure []
  | entry :: rest =>
      refine .bind (entry_ends hr h entry habove hp) fun mapped s hmapped => ?_
      have hsound := (entry_brings entry habove (fun _ => trivial) hp hmapped).sound hp
      refine .bind (entries_ends hr h rest habove (hsound.subset (List.nil_subset _))) ?_
      exact fun _ _ _ => .pure _

end

/-! ## Whole layouts -/

theorem withSubmit_returns (nodes : List Node) : Returns known (withSubmit ctx nodes) := by
  unfold withSubmit
  split
  · exact returns_newId.bind fun _ => .pure _
  · exact .pure _

theorem layout_ends (hr : ctx.resolved.Settled)
    (h : Resolved.of? document = some ctx.resolved) (entries : List Json)
    (hp : Sound ctx True p []) : Ends p (layout ctx entries) := by
  have hdepth : Pointer.anyItem (Pointer.genericLayout "") = Pointer.level 0 := by
    rw [Pointer.genericLayout_empty]
    rfl
  refine .bind (entries_ends hr h _ hdepth hp) fun nodes s _ => ?_
  refine .bind ((withSubmit_returns _).ends s) fun made s' _ => ?_
  exact ⟨_, _, runs_bind.mpr ⟨(), _, runs_onTemplates.mpr rfl, runs_pure.mpr ⟨rfl, rfl⟩⟩⟩

end Compose

namespace Form

/-- **A form of a settled schema is built**, whatever the description of its layout, the data, the
options and the widgets are. -/
theorem build_settled {document : Json} {resolved : Resolved}
    (h : Resolved.of? document = some resolved) (hr : resolved.Settled) (initial : Json)
    (options : FormOptions) (widgets : Registry) (entries : List Json) :
    ∃ form, build? ⟨resolved, initial, options, widgets⟩ entries = some form := by
  let setup : Setup := ⟨resolved, initial, options, widgets⟩
  have hends : Ends {} (Compose.layout setup entries) :=
    Compose.layout_ends hr h entries (sound_start setup True)
  obtain ⟨layout, progress, hrun⟩ := hends
  have hbuilt : (Compose.layout setup entries).run {} = some (layout, progress) := hrun
  exact ⟨⟨layout, setup, progress⟩, by rw [build?, hbuilt, Option.map_some]⟩

theorem build_settled_nodes : ∃ resolved,
    Resolved.of? (Resolved.nodeOf (.str "array")) = some resolved ∧ resolved.Settled ∧
      ∀ initial options widgets entries,
        ∃ form, build? ⟨resolved, initial, options, widgets⟩ entries = some form := by
  obtain ⟨resolved, h, hr⟩ := Resolved.settled_nodeOf
  exact ⟨resolved, h, hr, build_settled h hr⟩

/-- An object with a list of such objects.  Additional items say nothing beside one schema for all
items, but their data have the same place, and their rule takes the place of that of the items. -/
def overriddenSchema : Json :=
  .obj [("type", .str "object"), ("properties", .obj [("a", .obj [("type", .str "array"),
    ("items", .obj [("$ref", .str "#")]),
    ("additionalItems", .obj [("$ref", .str "#/properties/a")])])])]

/-- The data segments of the list positions so many lists down. -/
def listsDown (n : Nat) : List String := (List.replicate n ["a", Pointer.wildcard]).flatten

theorem listsDown_succ (n : Nat) : listsDown (n + 1) = listsDown n ++ ["a", Pointer.wildcard] := by
  rw [listsDown, List.replicate_succ', List.flatten_append]
  rfl

theorem length_listsDown (n : Nat) : (listsDown n).length = 2 * n := by
  induction n with
  | zero => rfl
  | succ n ih =>
      rw [listsDown_succ, List.length_append, ih]
      rfl

theorem apart_overridden : Pointer.Apart [("/a/-", "/a")] [("/a", 0)] :=
  Pointer.apart_of_paths [(["a", Pointer.wildcard], ["a"])] (by decide) (by decide) (by decide)

theorem shallowest_listsDown (n : Nat) :
    Pointer.shallowest [("/a/-", "/a")] [("/a", 0)] (listsDown (n + 1)) = "a" :: listsDown n := by
  have hmoves : Pointer.Moves [("/a/-", "/a")] ["a", Pointer.wildcard] ["a"] :=
    ⟨List.mem_singleton.mpr rfl, by decide, by decide⟩
  have hclear : Pointer.Clear [("/a/-", "/a")] ("a" :: listsDown n) := by
    rintro source target ⟨hm, -⟩ hle
    obtain ⟨hsource, -⟩ := Prod.mk.inj (List.mem_singleton.mp hm)
    obtain rfl : source = ["a", Pointer.wildcard] := Pointer.ofSegments_injective hsource
    obtain ⟨rest, hrest⟩ := hle
    cases n with
    | zero => cases hrest
    | succ n =>
        rw [listsDown, List.replicate_succ] at hrest
        exact absurd (List.cons.inj (List.cons.inj hrest).2).1 (by decide)
  have hgeneric : ∀ key ∈ "a" :: listsDown n, Pointer.index? key = none := by
    intro key hm
    rcases List.mem_cons.mp hm with rfl | hm
    · decide
    · obtain ⟨step, hstep, hkey⟩ := List.mem_flatten.mp hm
      obtain rfl := List.eq_of_mem_replicate hstep
      simp only [List.mem_cons, List.not_mem_nil, or_false] at hkey
      rcases hkey with rfl | rfl <;> decide
  calc Pointer.shallowest [("/a/-", "/a")] [("/a", 0)] (listsDown (n + 1))
      = Pointer.shallowest [("/a/-", "/a")] [("/a", 0)] (["a"] ++ listsDown n) :=
        apart_overridden.shallowest_moved hmoves (listsDown n)
    _ = "a" :: listsDown n :=
        hclear.shallowest apart_overridden (Pointer.genericSegments_of_keys _ [] hgeneric)

/-- The request is so many lists down: the template that it is within starts there. -/
structure IsDown (schemaPointer dataPointer : String) (n : Nat) (r : Generate.Request) : Prop where
  schemaPointer : r.schemaPointer = schemaPointer
  dataPointer : r.dataPointer = dataPointer
  above : r.above = Pointer.ofSegments (listsDown n)

theorem IsDown.property {n : Nat} {r : Generate.Request} (hr : IsDown "" "" n r)
    (layoutPointer : String) :
    IsDown "/properties/a" "/a" n (Generate.propertyRequest r layoutPointer "a") := by
  refine ⟨?_, ?_, hr.above⟩
  · have hroot : r.schemaPointer = Pointer.ofSegments [] := hr.schemaPointer
    rw [Generate.propertyRequest_schemaPointer hroot]
    rfl
  · show Pointer.child r.dataPointer "a" = "/a"
    rw [hr.dataPointer]
    rfl

/-- The tables of the schema with the overridden rule. -/
structure IsOverridden (r : Resolved) : Prop where
  schema : r.schema = overriddenSchema
  schemaFolds : r.schemaFolds =
    [("/properties/a/additionalItems", "/properties/a"), ("/properties/a/items", "")]
  dataFolds : r.dataFolds = [("/a/-", "/a")]
  arrays : r.arrays = [("/a", 0)]

theorem of?_overridden : ∃ r, Resolved.of? overriddenSchema = some r ∧ IsOverridden r :=
  ⟨_, rfl, rfl, rfl, rfl, rfl⟩

section Overridden

variable {ctx : Setup} {n : Nat} {r : Generate.Request} (hctx : IsOverridden ctx.resolved)

include hctx

/-- The name of the template of the items, one list further down. -/
theorem IsDown.name (hr : IsDown "/properties/a" "/a" n r) :
    ctx.dataKey (Pointer.anyItem r.fullPointer) = Pointer.ofSegments ("a" :: listsDown n) := by
  have hfull : Pointer.anyItem r.fullPointer = Pointer.ofSegments (listsDown (n + 1)) := by
    rw [Generate.Request.fullPointer, hr.above, hr.dataPointer, Pointer.anyItem, listsDown_succ,
      Pointer.ofSegments_append, String.append_assoc, String.append_assoc]
    rfl
  rw [hfull, Setup.dataKey, hctx.dataFolds, hctx.arrays, apart_overridden.shorten_ofSegments,
    shallowest_listsDown]

/-- The items are objects again, one list further down. -/
theorem IsDown.item (hr : IsDown "/properties/a" "/a" n r) (layoutPointer : String)
    (removable : Bool) : IsDown "" "" (n + 1)
      (Generate.itemTemplate r (Generate.siteAt ctx r layoutPointer) .list removable
        (ctx.schemaKey (r.schemaPointer ++ "/" ++ "items")) (Pointer.anyItem r.dataPointer)) := by
  have hapart : Pointer.Apart ctx.resolved.schemaFolds ctx.resolved.arrays := by
    rw [hctx.schemaFolds, hctx.arrays]
    exact Pointer.apart_of_paths [(["properties", "a", "additionalItems"], ["properties", "a"]),
      (["properties", "a", "items"], [])] (by decide) (by decide) (by decide)
  have hkey : ctx.schemaKey (r.schemaPointer ++ "/" ++ "items") = "" := by
    have hitems : r.schemaPointer ++ "/" ++ "items" =
        Pointer.ofSegments ["properties", "a", "items"] := by
      rw [hr.schemaPointer]
      rfl
    rw [Setup.schemaKey, hitems, hapart.shorten_ofSegments, hctx.schemaFolds, hctx.arrays]
    decide
  have hgeneric : ctx.generic r.dataPointer = "/a" := by
    rw [Setup.generic, hr.dataPointer, hctx.arrays]
    rfl
  have hrelative : (Generate.siteAt ctx r layoutPointer).relative = true := by
    show (ctx.dataKey (Pointer.anyItem r.fullPointer) !=
      Pointer.anyItem (ctx.generic r.dataPointer)) = true
    rw [hr.name hctx, hgeneric, bne_iff_ne]
    intro he
    have hsegments : "a" :: listsDown n = ["a", Pointer.wildcard] :=
      Pointer.ofSegments_injective (he.trans rfl)
    cases n with
    | zero => cases hsegments
    | succ n => exact absurd (List.cons.inj (List.cons.inj hsegments).2).1 (by decide)
  unfold Generate.itemTemplate
  rw [hrelative, hkey, hr.dataPointer, hr.above]
  refine ⟨rfl, rfl, ?_⟩
  rw [listsDown_succ, Pointer.ofSegments_append]
  rfl

/-- The object so many lists down demands the template of the one further down. -/
theorem IsDown.demands (hr : IsDown "" "" n r) : Generate.Demands ctx r
    (Pointer.ofSegments ("a" :: listsDown n)) (IsDown "" "" (n + 1)) := by
  have hroot : ctx.resolved.schemaAt? r.schemaPointer = some overriddenSchema := by
    rw [hr.schemaPointer, Resolved.schemaAt?, hctx.schema]
    rfl
  refine Generate.demands_property hroot rfl rfl rfl rfl rfl fun layoutPointer => ?_
  have hlist := hr.property layoutPointer
  have hschema : ctx.resolved.schemaAt? (Generate.propertyRequest r layoutPointer
      "a").schemaPointer = some (.obj [("type", .str "array"), ("items", .obj [("$ref", .str "#")]),
        ("additionalItems", .obj [("$ref", .str "#/properties/a")])]) := by
    rw [hlist.schemaPointer, Resolved.schemaAt?, hctx.schema]
    rfl
  rw [← hlist.name hctx]
  exact Generate.demands_list hschema rfl rfl rfl (by decide) rfl rfl (hlist.item hctx)

end Overridden

/-- **A form that is not built.**  The rule of the items is overridden, so that the names of their
templates never repeat, however deep requests may nest. -/
theorem not_built : ∃ resolved, Resolved.of? overriddenSchema = some resolved ∧
    ∀ initial options widgets,
      (∀ depth mapped q,
        ¬(Generate.buildNode ⟨resolved, initial, options, widgets⟩ depth {}).Runs {} mapped q) ∧
      build? ⟨resolved, initial, options, widgets⟩ [.str "*"] = none := by
  obtain ⟨resolved, h, hoverridden⟩ := of?_overridden
  refine ⟨resolved, h, fun initial options widgets => ?_⟩
  let ctx : Setup := ⟨resolved, initial, options, widgets⟩
  have hnames : Function.Injective fun n => Pointer.ofSegments ("a" :: listsDown n) := by
    intro n m he
    have hlength := congrArg List.length (Pointer.ofSegments_injective he)
    rw [List.length_cons, List.length_cons, length_listsDown, length_listsDown] at hlength
    omega
  have hendless : ∀ (p : Progress) depth mapped q, p.templates = [] →
      ¬(Generate.buildNode ctx depth {}).Runs p mapped q := by
    intro p depth mapped q hp
    have hdemands : ∀ n r, IsDown "" "" n r → Generate.Demands ctx r
        (Pointer.ofSegments ("a" :: listsDown n)) (IsDown "" "" (n + 1)) :=
      fun n r hr => hr.demands hoverridden
    have hstart : IsDown "" "" 0 {} := ⟨rfl, rfl, rfl⟩
    refine Generate.endless hdemands hnames hstart (fun m _ => ?_) depth
    rw [hp]
    rfl
  refine ⟨fun depth mapped q => hendless {} depth mapped q rfl, ?_⟩
  cases hbuilt : build? ctx [.str "*"] with
  | none => rfl
  | some form =>
      obtain ⟨⟨nodes, q⟩, hrun, -⟩ := Option.map_eq_some_iff.mp hbuilt
      obtain ⟨mapped, s, -, -, hwhole, -⟩ := Compose.runs_wholeLayout hrun
      exact absurd hwhole (hendless _ _ mapped s rfl)

end Form

end SchemaForm
