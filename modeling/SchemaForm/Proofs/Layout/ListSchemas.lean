/-
The schema that a list is described by.

An entry that is bound to a list is described by the schema that was recorded for the list
while its items were laid out, if one was.  Where no rule leads data up to the list or to the
form as a whole (`Setup.StandsAlone`), whatever is recorded there is the list's own schema:
requests outside of templates that share its place are for it (`Generate.Arises.inPlace`).
And where no schema that is asked for as an item of the list is that of a reference, none is
stored as one (`Generate.Filed.plain`).
-/
import SchemaForm.Proofs.Layout.ListItems
import SchemaForm.Proofs.Reference.Folds

namespace SchemaForm

open Build Pointer

/-- No rule leads data up to the list or to the form as a whole, and no reference is asked
for as an item of the list. -/
structure Setup.StandsAlone (s : Setup) (name : String) : Prop where
  written : ∀ rule ∈ s.resolved.dataFolds, RuleWritten rule
  folds : ∀ rule ∈ s.resolved.dataFolds, isFold rule = true →
    rule.2 ≠ "" ∧ rule.2 ≠ child "" name
  items : ∀ pointer schema, Generate.Fills s (s.itemPlace name) pointer →
    s.resolved.schemaAt? pointer = some schema → Schema.controlType? schema [] ≠ some "$ref"

namespace Generate

variable {ctx : Setup} {S : Request → Prop} {r : Request} {name pointer : String} {array : Json}
  {t : Template}

/-! ## Places that nothing is moved to -/

/-- What is one step down from a place and at a plain name is at that name of the root. -/
theorem generic_child_plain (hname : IsPlain name) {place key : String}
    (h : ctx.generic (child place key) = child "" name) :
    ctx.generic place = "" ∧ key = name := by
  cases hsegments : segments? place with
  | none =>
      have hnone := segments?_child_eq_none hsegments key
      have hsame : ctx.generic (child place key) = child place key := by
        rw [Setup.generic, toGeneric, hnone]
      rw [hsame.symm.trans h, child_root, segments?_ofSegments] at hnone
      cases hnone
  | some segments =>
      rw [Setup.generic, toGeneric, segments?_child hsegments, child_root] at h
      have hlength := congrArg List.length (ofSegments_injective h)
      rw [length_genericSegments, List.length_nil, Nat.zero_add, List.length_append,
        List.length_singleton, List.length_singleton] at hlength
      obtain rfl := List.length_eq_zero_iff.mp (Nat.succ.inj hlength)
      constructor
      · rw [Setup.generic, toGeneric, hsegments]
        rfl
      · have hgeneric : toGeneric ctx.resolved.arrays (child "" key) = child "" name := by
          rw [child_root, toGeneric_ofSegments, child_root]
          exact h
        exact hname.eq_of_generic hgeneric

theorem generic_child_ne_empty (ctx : Setup) (place key : String) :
    ctx.generic (child place key) ≠ "" := by
  rw [Setup.generic]
  cases h : segments? place with
  | none =>
      rw [toGeneric, segments?_child_eq_none h]
      exact slash_ne_empty _ _
  | some segments =>
      rw [toGeneric, segments?_child h]
      intro hempty
      have hnil := ofSegments_injective (hempty.trans rfl : _ = ofSegments [])
      have hlength := congrArg List.length hnil
      rw [length_genericSegments, List.length_append, List.length_singleton] at hlength
      exact absurd hlength (Nat.succ_ne_zero _)

theorem dataKey_empty (ctx : Setup) {place : String} (h : ctx.generic place = "") :
    ctx.dataKey place = "" := by
  have hfold : ctx.dataKey place = foldAll ctx.resolved.dataFolds ctx.resolved.arrays "" :=
    congrArg _ h
  rw [hfold]
  rcases foldAll_cases ctx.resolved.dataFolds ctx.resolved.arrays "" with hsame | hless
  · exact hsame
  · exact absurd hless (Nat.not_lt_zero _)

/-- Only what is there in generic form is moved to the place of the list, or of the form as a
whole. -/
theorem generic_of_dataKey (h : ctx.StandsAlone name) (hname : IsPlain name) {place : String}
    {path : List String} (hpath : path <+: [name]) (hplace : ctx.dataKey place = ofSegments path) :
    ctx.generic place = ofSegments path := by
  rcases shorten_origin h.written place with
    hsame | ⟨rule, hrule, hfold, target, found, htarget, hfound, hprefix⟩
  · exact hsame.symm.trans hplace
  · obtain rfl := ofSegments_injective (hfound.symm.trans hplace)
    obtain ⟨hroot, hlist⟩ := h.folds rule hrule hfold
    have habove := hprefix.trans hpath
    have hlength := habove.length_le
    rw [length_genericSegments, List.length_nil, Nat.zero_add, List.length_singleton] at hlength
    cases target with
    | nil => exact absurd htarget hroot
    | cons key rest =>
        have hrest := Nat.le_zero.mp (Nat.le_of_succ_le_succ hlength)
        obtain rfl := List.length_eq_zero_iff.mp hrest
        have hkey := habove.eq_of_length (length_genericSegments _ _ _)
        have hgeneric : toGeneric ctx.resolved.arrays (child "" key) = child "" name := by
          rw [child_root, toGeneric_ofSegments, hkey, ← child_root]
        rw [htarget, ← child_root, hname.eq_of_generic hgeneric] at hlist
        exact absurd rfl hlist

/-! ## Requests that share a place -/

/-- Outside of templates the request has the schema of the place that it is at, if that is the
place of the form as a whole or of the list. -/
def Request.InPlace (ctx : Setup) (name : String) (r : Request) : Prop :=
  r.inTemplate = false → (ctx.generic r.dataPointer = "" → r.schemaPointer = "") ∧
    (ctx.generic r.dataPointer = child "" name → r.schemaPointer = child "/properties" name)

theorem Comes.inPlace (hlist : ctx.HasList name array) (hS : ∀ s, S s → s.InPlace ctx name)
    (h : Comes ctx S r) : r.InPlace ctx name := by
  induction h with
  | start h => exact hS _ h
  | @property r _ _ key _ _ _ _ ih =>
      intro ht
      rw [propertyRequest_inTemplate] at ht
      refine ⟨fun hempty => absurd hempty (generic_child_ne_empty ctx _ _), fun hplace => ?_⟩
      obtain ⟨hroot, rfl⟩ := generic_child_plain hlist.plain hplace
      have hschema := (ih ht).1 hroot
      show child (r.schemaPointer ++ "/properties") key = _
      rw [hschema, String.empty_append]
  | @fixed r _ _ index _ hreads _ _ ih =>
      intro ht
      rw [tupleRequest_inTemplate] at ht
      have hdata : (tupleRequest r (itemSite ctx r) index).dataPointer =
          child r.dataPointer (Nat.repr index) := item_eq_child _ _
      rw [hdata]
      refine ⟨fun hempty => absurd hempty (generic_child_ne_empty ctx _ _), fun hplace => ?_⟩
      -- the form as a whole is no array
      obtain ⟨hroot, -⟩ := generic_child_plain hlist.plain hplace
      have hfound := hreads.found
      rw [(ih ht).1 hroot] at hfound
      obtain rfl := Option.some.inj ((schemaAt?_of_field .root).symm.trans hfound)
      have htype := (dataType?_of_typeName hlist.object).symm.trans hreads.dataType
      exact absurd (Option.some.inj htype) (by decide)
  | tuple => exact fun ht => absurd ht (Bool.noConfusion : ¬true = false)
  | list => exact fun ht => absurd ht (Bool.noConfusion : ¬true = false)
  | target => exact fun ht => absurd ht (Bool.noConfusion : ¬true = false)

/-- What is recorded under a key is recorded for what is in place there. -/
theorem Describes.inPlace (hlist : ctx.HasList name array) (h : ctx.StandsAlone name)
    (hS : ∀ s, S s → s.InPlace ctx name) {key : String} (hr : Describes ctx S key r) :
    (key = "" → r.schemaPointer = "") ∧
      (key = child "" name → r.schemaPointer = child "/properties" name) := by
  obtain ⟨hcomes, ht, rfl⟩ := hr
  obtain ⟨hroot, hplace⟩ := hcomes.inPlace hlist hS ht
  have hgeneric : ctx.generic (ctx.generic r.dataPointer) = ctx.generic r.dataPointer :=
    toGeneric_idem _ _
  constructor
  · intro hkey
    exact hroot (hgeneric.symm.trans (generic_of_dataKey h hlist.plain List.nil_prefix hkey))
  · intro hkey
    rw [child_root] at hkey
    refine hplace (hgeneric.symm.trans ?_)
    rw [generic_of_dataKey h hlist.plain List.prefix_rfl hkey, child_root]

/-- **Requests at the place of a list.**  Where the list stands alone, whatever comes up there
outside of templates is for its own schema. -/
theorem Arises.inPlace (hlist : ctx.HasList name array) (h : ctx.StandsAlone name)
    (hr : Arises ctx r) : r.InPlace ctx name := by
  have hkey : ∀ {place : String}, ctx.generic place = child "" name →
      ctx.dataKey place = child "" name := by
    intro place hplace
    have hsame : ctx.dataKey place = ctx.dataKey (child "" name) :=
      congrArg (foldAll ctx.resolved.dataFolds ctx.resolved.arrays)
        (hplace.trans (hlist.plain.toGeneric _).symm)
    exact hsame.trans hlist.place
  induction hr with
  | whole layoutPointer =>
      refine fun _ => ⟨fun _ => rfl, fun hplace => ?_⟩
      exact absurd hplace.symm (slash_ne_empty _ _)
  | @found c pointer hfound =>
      refine fun _ => ⟨fun hplace => ?_, fun hplace => ?_⟩
      · have hroot : ctx.dataKey (c.dataPointer.getD "") = "" := dataKey_empty ctx hplace
        rw [hroot] at hfound
        exact (Option.some.inj hfound).symm
      · have hown : ctx.dataKey (c.dataPointer.getD "") = child "" name := hkey hplace
        rw [hown, hlist.pointerOfData?] at hfound
        exact (Option.some.inj hfound).symm
  | @recorded S r c _ hr ih =>
      obtain ⟨hroot, hplace⟩ := hr.inPlace hlist h ih
      exact fun _ => ⟨fun hdata => hroot (dataKey_empty ctx hdata),
        fun hdata => hplace (hkey hdata)⟩

/-- So the list is described by its own schema. -/
theorem Leads.own (hlist : ctx.HasList name array) (h : ctx.StandsAlone name)
    (hleads : Leads ctx (child "" name) pointer) : pointer = child "/properties" name := by
  rcases hleads with hfound | ⟨r, hr, rfl⟩
  · exact Option.some.inj (hfound.symm.trans hlist.pointerOfData?)
  · exact (hr.inPlace hlist h fun _ hs => hs.inPlace hlist h).2 rfl

/-! ## Templates of items -/

/-- No reference is stored as an item of the list. -/
theorem Filed.plain (h : ctx.StandsAlone name) (hfiled : Filed ctx False (ctx.itemPlace name) t) :
    t.node.control.isReference = false := by
  rcases hfiled with hfalse | ⟨pointer, hfills, schema, hschema, -, htype, -⟩
  · exact hfalse.elim
  · refine beq_false_of_ne fun href => ?_
    exact h.items pointer schema hfills hschema (htype.trans (congrArg some href))

end Generate

/-! ## Schemas without references -/

/-- A control of something that is no object is none of a reference. -/
theorem Schema.controlType?_ne_ref {schema : Json} (h : schema.obj? = none) :
    controlType? schema [] ≠ some "$ref" := by
  cases schema with
  | obj members => cases h
  | _ =>
      have htext : "text" ≠ "$ref" := by decide
      exact fun htype => htext (Option.some.inj htype)

/-- Where nothing in the schema is a reference, every list stands alone. -/
theorem Setup.standsAlone_of {s : Setup} {name : String} (hlacks : s.lacksReferences = true)
    (htypes : s.resolved.schema.Everywhere fun members =>
      Schema.controlType? (.obj members) [] ≠ some "$ref") : s.StandsAlone name := by
  have hunfolded := (unreferenced_of hlacks).unfolded
  rw [Setup.Unfolded] at hunfolded
  refine ⟨?_, ?_, fun pointer schema _ hschema => ?_⟩
  · rw [hunfolded]
    exact fun _ hm => absurd hm List.not_mem_nil
  · rw [hunfolded]
    exact fun _ hm => absurd hm List.not_mem_nil
  · obtain ⟨path, -, hfollow⟩ := followed_of hlacks hschema
    have hbelow := htypes.follow hfollow
    cases schema with
    | obj members => exact hbelow.1
    | _ => exact Schema.controlType?_ne_ref rfl

end SchemaForm
