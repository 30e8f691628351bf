/-
Schemas without references.

Where no reference is left in the compiled schema and no data pointer is folded
(`Setup.Unreferenced`), no template is above another one: every request is for the data
where it is, the name of the items of an array is its own, and all templates are absolute.
How deep a request is laid out then depends on its data pointer alone
(`Setup.Unreferenced.layout_eq`), and only one is for a property of a plain name
(`Setup.Unreferenced.of_plain`).
-/
import SchemaForm.Proofs.Json.Everywhere
import SchemaForm.Proofs.Layout.DataPointers
import SchemaForm.Proofs.Pointer.Names

namespace SchemaForm

open Generate
open Pointer (ofSegments)

/-- No data pointer is folded into a shallower one. -/
def Setup.Unfolded (s : Setup) : Prop := s.resolved.dataFolds = []

/-- Without rules a pointer is only brought to generic form. -/
theorem Pointer.shorten_nil (arrays : ArrayTable) (pointer : String) :
    Pointer.shorten [] arrays pointer = Pointer.toGeneric arrays pointer := by
  rw [shorten, foldAll, if_neg]
  exact Nat.lt_irrefl _

theorem Setup.Unfolded.dataKey {s : Setup} (h : s.Unfolded) (pointer : String) :
    s.dataKey pointer = s.generic pointer := by
  rw [Setup.dataKey, h, Pointer.shorten_nil]
  rfl

/-- No reference is left in the schema, and no data pointer is folded. -/
structure Setup.Unreferenced (ctx : Setup) : Prop where
  unfolded : ctx.Unfolded
  typed : ∀ pointer schema, ctx.resolved.schemaAt? pointer = some schema →
    dataType? schema ≠ some "$ref"

/-- No object in the schema is a reference, none is known to be one, and nothing is folded. -/
def Setup.lacksReferences (ctx : Setup) : Bool :=
  ctx.resolved.dataFolds.isEmpty && ctx.resolved.library.isEmpty &&
    decide (ctx.resolved.schema.Everywhere fun members => dataType? (.obj members) ≠ some "$ref")

/-- Schemas are found in the compiled schema only. -/
theorem Setup.followed_of {ctx : Setup} (h : ctx.lacksReferences = true) {pointer : String}
    {schema : Json} (hschema : ctx.resolved.schemaAt? pointer = some schema) :
    ∃ path, Pointer.segments? pointer = some path ∧
      ctx.resolved.schema.follow? path = some schema := by
  simp only [lacksReferences, Bool.and_eq_true, List.isEmpty_iff] at h
  rw [Resolved.schemaAt?, h.1.2] at hschema
  rcases Option.or_eq_some_iff.mp hschema with hat | ⟨-, hnone⟩
  · exact Option.bind_eq_some_iff.mp hat
  · cases hnone

theorem Setup.unreferenced_of {ctx : Setup} (h : ctx.lacksReferences = true) :
    ctx.Unreferenced := by
  have hfacts := h
  simp only [lacksReferences, Bool.and_eq_true, List.isEmpty_iff, decide_eq_true_iff] at hfacts
  obtain ⟨⟨hunfolded, -⟩, hplain⟩ := hfacts
  refine ⟨hunfolded, fun pointer schema hschema => ?_⟩
  obtain ⟨path, -, hfollow⟩ := followed_of h hschema
  have hbelow := hplain.follow hfollow
  cases schema with
  | obj members => exact hbelow.1
  | _ =>
      intro htype
      cases htype

namespace Setup.Unreferenced

variable {ctx : Setup} {r r' : Request} {p : Progress} {name : String} {t : Template}

/-- The name of the items of an array with nothing above it is that of their place. -/
theorem name_eq (h : ctx.Unreferenced) (habove : r.above = "") :
    (itemSite ctx r).name = Pointer.anyItem (ctx.generic r.dataPointer) := by
  have hname : (itemSite ctx r).name = ctx.generic (Pointer.anyItem r.dataPointer) := by
    show ctx.dataKey (Pointer.anyItem (r.above ++ r.dataPointer)) = _
    rw [habove, String.empty_append, h.unfolded.dataKey]
  refine hname.trans (Eq.trans ?_ (Pointer.toGeneric_anyItem _ _))
  rw [Pointer.anyItem_eq_child, Pointer.anyItem_eq_child]
  exact (Pointer.toGeneric_child _ _ _).symm

theorem own_of_above (h : ctx.Unreferenced) (habove : r.above = "") :
    (itemSite ctx r).relative = false :=
  bne_eq_false_iff_eq.mpr (h.name_eq habove)

/-- Nothing is above a request. -/
theorem above (h : ctx.Unreferenced) (hcomes : Comes ctx Whole r) : r.above = "" := by
  have hitem : ∀ {r : Request} (kind removable schemaPointer item), r.above = "" →
      (Generate.itemTemplate r (itemSite ctx r) kind removable schemaPointer item).above = "" := by
    intro r kind removable schemaPointer item habove
    rw [Generate.itemTemplate, h.own_of_above habove]
    rfl
  induction hcomes with
  | start hr => exact congrArg Request.above hr
  | property _ _ _ _ ih => exact ih
  | fixed _ _ _ _ ih => exact ih
  | tuple _ _ _ _ ih => exact hitem _ _ _ _ ih
  | list _ _ _ _ ih => exact hitem _ _ _ _ ih
  | target _ _ hreads _ => exact absurd hreads.dataType (h.typed _ _ hreads.found)

theorem own (h : ctx.Unreferenced) (hcomes : Comes ctx Whole r) :
    (itemSite ctx r).relative = false :=
  h.own_of_above (h.above hcomes)

/-- The bounds of an array are recorded under its own place. -/
theorem boundsKey_eq (h : ctx.Unreferenced) (hcomes : Comes ctx Whole r) :
    boundsKey ctx r = ctx.generic r.dataPointer := by
  rw [boundsKey, h.name_eq (h.above hcomes), Pointer.listOfItem?_anyItem]
  rfl

theorem absolute (h : ctx.Unreferenced) (ht : Origin ctx Whole NoneGiven p name t) :
    t.relative = false := by
  rcases ht with ht | ⟨r, relative, n, hfor, -, rfl⟩
  · exact ht.elim
  · cases hfor with
    | item _ hcomes _ _ => exact h.own hcomes
    | target _ _ hreads => exact absurd hreads.dataType (h.typed _ _ hreads.found)

/-! ## Depths -/

/-- The depth of what is right below the form as a whole. -/
def top (ctx : Setup) : Nat :=
  if (ctx.resolved.schemaAt? "").bind dataType? = some "object" then 0 else 1

theorem top_of_reads {type : String} {schema : Json} (h : Request.Reads ctx {} type schema) :
    top ctx = if type = "object" then 0 else 1 := by
  have hroot : ctx.resolved.schemaAt? "" = some schema := h.found
  simp only [top, hroot, Option.bind_some, h.dataType, Option.some.injEq]

/-- A request is for the form as a whole, or it is laid out as deep as its data are. -/
def Deep (ctx : Setup) (r : Request) : Prop :=
  r = {} ∨ ∃ path, r.dataPointer = ofSegments path ∧ path ≠ [] ∧
    r.layout = Pointer.level (path.length - 1 + top ctx)

theorem deep_item (h : Deep ctx r) {schema : Json} (hreads : r.Reads ctx "array" schema)
    (hdata : ∃ segment, r'.dataPointer = Pointer.child r.dataPointer segment)
    (hlayout : r'.layoutPointer = (itemSite ctx r).layout) : Deep ctx r' := by
  obtain ⟨segment, hdata⟩ := hdata
  refine .inr ?_
  rcases h with rfl | ⟨path, hpath, hne, hlevel⟩
  · refine ⟨[segment], hdata.trans (Pointer.child_ofSegments [] segment), List.cons_ne_nil _ _, ?_⟩
    rw [top_of_reads hreads]
    exact layout_of_level (hlayout.trans (itemSite_layout ctx (layout_of_empty rfl)))
  · refine ⟨path ++ [segment], by rw [hdata, hpath, Pointer.child_ofSegments],
      List.concat_ne_nil _ _, ?_⟩
    rw [layout_of_level (hlayout.trans (itemSite_layout ctx hlevel)), List.length_append,
      List.length_singleton]
    have hlength := List.length_pos_iff.mpr hne
    congr 1
    omega

theorem deep_property (h : Deep ctx r) {schema : Json} (hreads : r.Reads ctx "object" schema)
    (name : String) : Deep ctx (propertyRequest r (childLayout r r.layout) name) := by
  refine .inr ?_
  have hdata : (propertyRequest r (childLayout r r.layout) name).dataPointer =
      Pointer.child r.dataPointer name := rfl
  rcases h with rfl | ⟨path, hpath, hne, hlevel⟩
  · refine ⟨[name], hdata.trans (Pointer.child_ofSegments [] name), List.cons_ne_nil _ _, ?_⟩
    rw [top_of_reads hreads]
    exact layout_of_level rfl
  · refine ⟨path ++ [name], by rw [hdata, hpath, Pointer.child_ofSegments],
      List.concat_ne_nil _ _, ?_⟩
    have hroot : r.isRoot = false := by
      refine isRoot_of_ne fun hempty => hne ?_
      exact Pointer.ofSegments_injective ((hpath.symm.trans hempty).trans rfl)
    have hchild : childLayout r r.layout = Pointer.level (path.length - 1 + top ctx + 1) := by
      rw [childLayout, hroot, hlevel]
      rfl
    rw [hchild, layout_of_level rfl, List.length_append, List.length_singleton]
    have hlength := List.length_pos_iff.mpr hne
    congr 1
    omega

theorem deep (h : ctx.Unreferenced) (hcomes : Comes ctx Whole r) : Deep ctx r := by
  have hitem : ∀ {r : Request} {schema : Json} {segment : String} (kind removable schemaPointer),
      Comes ctx Whole r → Deep ctx r → r.Reads ctx "array" schema →
      Deep ctx (Generate.itemTemplate r (itemSite ctx r) kind removable schemaPointer
        (Pointer.child r.dataPointer segment)) := by
    intro r schema segment kind removable schemaPointer hcomes hdeep hreads
    refine deep_item hdeep hreads ⟨segment, ?_⟩ ?_
    all_goals
      rw [Generate.itemTemplate, h.own hcomes]
      rfl
  induction hcomes with
  | start hr => exact .inl hr
  | property _ hreads _ _ ih => exact deep_property ih hreads _
  | @fixed r schema tuple index _ hreads _ _ ih =>
      have hdata : (tupleRequest r (itemSite ctx r) index).dataPointer =
          Pointer.child r.dataPointer (Nat.repr index) := Pointer.item_eq_child _ _
      exact deep_item ih hreads ⟨_, hdata⟩ rfl
  | @tuple r schema tuple index hcomes hreads _ _ ih =>
      rw [Pointer.item_eq_child r.dataPointer]
      exact hitem _ _ _ hcomes ih hreads
  | list _ hcomes hreads _ ih =>
      rw [Pointer.anyItem_eq_child]
      exact hitem _ _ _ hcomes ih hreads
  | target _ _ hreads _ => exact absurd hreads.dataType (h.typed _ _ hreads.found)

/-- Requests for the same data are laid out at the same depth. -/
theorem layout_eq (h : ctx.Unreferenced) (hr : Comes ctx Whole r) (hr' : Comes ctx Whole r')
    (hsame : ctx.generic r.dataPointer = ctx.generic r'.dataPointer) : r.layout = r'.layout := by
  have hlength : ∀ path path' : List String, ctx.generic (ofSegments path) =
      ctx.generic (ofSegments path') → path.length = path'.length := by
    intro path path' he
    rw [Setup.generic, Setup.generic, Pointer.toGeneric_ofSegments,
      Pointer.toGeneric_ofSegments] at he
    have hsegments := congrArg List.length (Pointer.ofSegments_injective he)
    rwa [Pointer.length_genericSegments, Pointer.length_genericSegments, List.length_nil,
      Nat.zero_add, Nat.zero_add] at hsegments
  rcases h.deep hr with rfl | ⟨path, hpath, hne, hlevel⟩ <;>
    rcases h.deep hr' with rfl | ⟨path', hpath', hne', hlevel'⟩
  · rfl
  · have hzero := hlength [] path' (hsame.trans (congrArg _ hpath'))
    exact absurd (List.length_eq_zero_iff.mp hzero.symm) hne'
  · have hzero := hlength path [] ((congrArg _ hpath.symm).trans hsame)
    exact absurd (List.length_eq_zero_iff.mp hzero) hne
  · rw [hpath, hpath'] at hsame
    rw [hlevel, hlevel', hlength path path' hsame]

/-- Arrays with a name in common for what is right below them are laid out at the same depth. -/
theorem layout_of_child (h : ctx.Unreferenced) (hr : Comes ctx Whole r) (hr' : Comes ctx Whole r')
    {segment segment' : String} (hsame : Pointer.child (ctx.generic r.dataPointer) segment =
      Pointer.child (ctx.generic r'.dataPointer) segment') : r.layout = r'.layout := by
  have hpasses := (written_reaches ctx).toPasses
  have hwritten : ∀ {r}, Comes ctx Whole r → Pointer.Written (ctx.generic r.dataPointer) :=
    fun hcomes => hpasses.generic _ (hcomes.dataPointer hpasses whole_written)
  obtain ⟨path, hpath⟩ := hwritten hr
  obtain ⟨path', hpath'⟩ := hwritten hr'
  refine h.layout_eq hr hr' ?_
  rw [hpath, hpath', Pointer.child_ofSegments, Pointer.child_ofSegments] at hsame
  rw [hpath, hpath', (List.append_inj' (Pointer.ofSegments_injective hsame) rfl).1]

/-- Arrays that take their items from the template of one name are laid out at the same depth. -/
theorem layout_of_name (h : ctx.Unreferenced) (hr : Comes ctx Whole r) (hr' : Comes ctx Whole r')
    {item item' : String} (htakes : Takes ctx r name item) (htakes' : Takes ctx r' name item') :
    r.layout = r'.layout := by
  obtain ⟨segment, hname, -⟩ := htakes.own (h.own hr)
  obtain ⟨segment', hname', -⟩ := htakes'.own (h.own hr')
  exact h.layout_of_child hr hr' (hname.symm.trans hname')

/-! ## Properties at the top -/

/-- Only one request is for a property of the data as a whole. -/
theorem of_property (h : ctx.Unreferenced)
    (hobject : (ctx.resolved.schemaAt? "").bind dataType? = some "object")
    (hcomes : Comes ctx Whole r) {key : String} (hdata : r.dataPointer = ofSegments [key]) :
    r = propertyRequest {} (childLayout {} ({} : Request).layout) key := by
  have hroot : ∀ {r : Request} {segment : String}, Comes ctx Whole r →
      Pointer.child r.dataPointer segment = ofSegments [key] → r = {} ∧ segment = key := by
    intro r segment hcomes hchild
    rcases h.deep hcomes with rfl | ⟨path, hpath, hne, -⟩
    · have hone := Pointer.ofSegments_injective ((Pointer.child_ofSegments [] _).symm.trans hchild)
      exact ⟨rfl, List.head_eq_of_cons_eq hone⟩
    · rw [hpath, Pointer.child_ofSegments] at hchild
      have hlength := congrArg List.length (Pointer.ofSegments_injective hchild)
      rw [List.length_append, List.length_singleton, List.length_singleton] at hlength
      exact absurd (List.length_eq_zero_iff.mp (Nat.succ.inj hlength)) hne
  have hlist : ∀ {r : Request} {schema : Json} {segment : String}, Comes ctx Whole r →
      r.Reads ctx "array" schema → Pointer.child r.dataPointer segment ≠ ofSegments [key] := by
    intro r schema segment hcomes hreads hchild
    obtain ⟨rfl, -⟩ := hroot hcomes hchild
    have hfound : ctx.resolved.schemaAt? "" = some schema := hreads.found
    rw [hfound, Option.bind_some, hreads.dataType] at hobject
    exact absurd (Option.some.inj hobject) (by decide)
  cases hcomes with
  | start hr =>
      obtain rfl := hr
      exact absurd (Pointer.ofSegments_injective (hdata.symm.trans rfl : _ = ofSegments []))
        (List.cons_ne_nil _ _)
  | property hcomes _ _ _ =>
      obtain ⟨rfl, rfl⟩ := hroot hcomes hdata
      rfl
  | fixed hcomes hreads _ _ =>
      exact absurd ((Pointer.item_eq_child _ _).symm.trans hdata) (hlist hcomes hreads)
  | tuple hcomes hreads _ _ =>
      rw [itemTemplate, h.own hcomes] at hdata
      exact absurd ((Pointer.item_eq_child _ _).symm.trans hdata) (hlist hcomes hreads)
  | list _ hcomes hreads _ =>
      rw [itemTemplate, h.own hcomes] at hdata
      exact absurd ((Pointer.anyItem_eq_child _).symm.trans hdata) (hlist hcomes hreads)
  | target _ _ hreads => exact absurd hreads.dataType (h.typed _ _ hreads.found)

/-- A plain name is the place of one request. -/
theorem of_plain (h : ctx.Unreferenced)
    (hobject : (ctx.resolved.schemaAt? "").bind dataType? = some "object")
    (hcomes : Comes ctx Whole r) (hname : Pointer.IsPlain name)
    (hplace : ctx.generic r.dataPointer = Pointer.child "" name) :
    r = propertyRequest {} (childLayout {} ({} : Request).layout) name := by
  refine h.of_property hobject hcomes ?_
  rcases h.deep hcomes with rfl | ⟨path, hpath, -, -⟩
  · exact absurd hplace.symm (Pointer.slash_ne_empty _ _)
  · rw [hpath, Setup.generic, Pointer.toGeneric_ofSegments, Pointer.child_root] at hplace
    have hlength := congrArg List.length (Pointer.ofSegments_injective hplace)
    rw [Pointer.length_genericSegments, List.length_nil, Nat.zero_add] at hlength
    obtain ⟨other, rfl⟩ := List.length_eq_one_iff.mp hlength
    rw [← Pointer.toGeneric_ofSegments, ← Pointer.child_root, ← Pointer.child_root] at hplace
    rw [hpath, hname.eq_of_generic hplace]

end Setup.Unreferenced

namespace Form

variable {options : FormOptions} {widgets : Registry} {schema data : Option Json} {form : Form}

/-- Without references all templates are absolute. -/
theorem absolute (h : compile options widgets schema none data = .ok form)
    (hplain : form.setup.Unreferenced) {name : String} {t : Template}
    (ht : form.progress.templates.template? name = some t) : t.relative = false := by
  obtain ⟨s, stored, horigin, rfl, -⟩ := stored_origin h ht
  have habsolute : stored.relative = false := hplain.absolute horigin
  exact habsolute

end Form

end SchemaForm
