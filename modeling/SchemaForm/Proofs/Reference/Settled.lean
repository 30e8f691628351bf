/-
Schemas whose recursion settles.

Below a reference a form goes on at the place that the reference names, with a schema pointer that
is moved there by the schema rules and a data pointer that is moved by the data rules.  In a
settled schema (`Resolved.Settled`) the two moves always agree: the tables are in step, a field is
moved by its own reference or not at all, and a lookup that leaves the fields, or comes to them by
an index that is not known for a list position, comes to a place from where nothing is moved any
more (`Resolved.Still`).  So the field that a shallowest pointer leads to stands at that very
pointer, or at and below it nothing is moved (`Settled.located`).
-/
import SchemaForm.Proofs.Reference.Realized
import SchemaForm.Proofs.Schema.Lookups

namespace SchemaForm

namespace Resolved

open Pointer (ofSegments Moves Apart shallowest genericSegment genericSegments shorten wildcard)
open Schema (Field Found locateFrom? StepsTo)

variable {r : Resolved} {document : Json} {path place data below target above : List String}
  {s t : Json} {key : String}

/-- At and below the path no pointer of a schema is moved. -/
def Still (r : Resolved) (path : List String) : Prop :=
  ∀ below s, path <+: below → r.schema.follow? below = some s →
    shorten r.schemaFolds r.arrays (ofSegments below) = ofSegments below

theorem Still.of_prefix (h : r.Still path) (hle : path <+: below) : r.Still below :=
  fun further s hfurther hs => h further s (hle.trans hfurther) hs

/-- Where nothing is, nothing is moved. -/
theorem Still.of_none (h : r.schema.follow? path = none) : r.Still path := by
  rintro below s ⟨more, rfl⟩ hs
  rw [Schema.follow?_none h more] at hs
  cases hs

/-- The two ways of moving pointers agree wherever a form comes to. -/
structure Settled (r : Resolved) : Prop extends InStep r where
  /-- A field is moved by its own reference, or not at all. -/
  moved : ∀ path place s, Field r.schema path place s →
    shorten r.schemaFolds r.arrays (ofSegments path) = ofSegments path ∨
      ∃ target, r.Refers path target ∧
        shorten r.schemaFolds r.arrays (ofSegments path) = ofSegments target
  /-- A list is an array by the name of its type, or nothing is moved within its items. -/
  listed : ∀ path place s members, Field r.schema path place s →
    s.get? "items" = some (.obj members) →
      Schema.isTyped s "array" = true ∨ r.Still (path ++ ["items"])
  /-- So is a list behind fixed positions; and other additional items are no fields. -/
  additionalItems : ∀ path place s members, Field r.schema path place s →
    s.get? "additionalItems" = some (.obj members) →
      (Schema.isTyped s "array" = true ∧ ∃ tuple, s.get? "items" = some (.arr tuple)) ∨
        r.Still (path ++ ["additionalItems"])
  /-- Additional properties are no fields. -/
  additionalProperties : ∀ path place s members, Field r.schema path place s →
    s.get? "additionalProperties" = some (.obj members) → r.Still (path ++ ["additionalProperties"])
  /-- No data rule is for the list positions of an array with fixed positions. -/
  beside : ∀ path place s first rest target, Field r.schema path place s →
    s.get? "items" = some (.arr (first :: rest)) →
      ¬Moves r.dataFolds (shallowest r.dataFolds r.arrays place ++ [wildcard]) target
  /-- What a lookup finds outside of the schema is no schema that a reference names. -/
  unnamed : ∀ data found, locateFrom? r.schema data = some found →
    r.schema.follow? found.path = none → Table.get? r.library (ofSegments found.path) = none

/-- A reference and its target have the same shallowest pointer. -/
theorem InStep.shallowest_refers (hr : r.InStep) (h : of? document = some r)
    (hfield : Field r.schema path place s) (hrefers : r.Refers path target)
    (htarget : Field r.schema target above t) :
    shallowest r.dataFolds r.arrays above = shallowest r.dataFolds r.arrays place := by
  by_cases hself : above = place
  · rw [hself]
  · have hmoves := hr.moves_of_refers h hfield hrefers htarget hself
    have hapart := hr.apart h
    rw [hapart.shallowest_target hmoves, hapart.shallowest_source hmoves]

namespace Settled

variable (hr : r.Settled) (h : of? document = some r)

include hr h

/-- A moved field is another one with the same shallowest pointer. -/
theorem exists_moved (hfield : Field r.schema path place s) : ∃ path' place' t,
    shorten r.schemaFolds r.arrays (ofSegments path) = ofSegments path' ∧
      Field r.schema path' place' t ∧
      shallowest r.dataFolds r.arrays place' = shallowest r.dataFolds r.arrays place := by
  rcases hr.moved _ _ _ hfield with hsame | ⟨target, hrefers, htarget⟩
  · exact ⟨path, place, s, hsame, hfield, rfl⟩
  · obtain ⟨above, t, hlanding, -⟩ := hr.upward _ _ _ _ hfield hrefers
    exact ⟨target, above, t, htarget, hlanding, hr.shallowest_refers h hfield hrefers hlanding⟩

/-- One step of a lookup leads from a field to the field of the next place, or to a place from
where nothing is moved. -/
theorem field_step {step : List String} (hfield : Field r.schema path place s)
    (hgeneric : genericSegment r.arrays place key = key)
    (hstep : StepsTo s key (.declared step t)) :
    Field r.schema (path ++ step) (place ++ [key]) t ∨ r.Still (path ++ step) := by
  cases hstep with
  | property hproperties ht => exact .inl (hfield.property hproperties ht)
  | items hitems hposition =>
      rcases hr.listed _ _ _ _ hfield hitems with htyped | hstill
      · refine .inl ?_
        cases hindex : Pointer.index? key with
        | none =>
            rw [Schema.isPosition, hindex, Option.isSome_none, Bool.false_or] at hposition
            obtain rfl : key = wildcard := eq_of_beq hposition
            exact hfield.items hitems
        | some index =>
            obtain rfl : wildcard = key :=
              (hr.genericSegment_list h hfield htyped hitems hindex).symm.trans hgeneric
            exact hfield.items hitems
      · exact .inr hstill
  | @position tuple index t htuple hindex ht =>
      rcases Pointer.position?_of_index? hindex with hnone | rfl
      · -- The position is written in a way that no schema pointer has.
        refine .inr (.of_none ?_)
        rw [Json.follow?_append, hfield.follow, Option.bind_some,
          Schema.follow?_cons (Schema.step?_of_get? htuple), Json.follow?, Json.step?, hnone]
        rfl
      · exact .inl (hfield.position (by rw [htuple]; rfl) ht)
  | additionalItems hitems hposition hbeyond =>
      rcases hr.additionalItems _ _ _ _ hfield hitems with ⟨htyped, tuple, htuple⟩ | hstill
      · refine .inl ?_
        cases hindex : Pointer.index? key with
        | none =>
            rw [Schema.isPosition, hindex, Option.isSome_none, Bool.false_or] at hposition
            obtain rfl : key = wildcard := eq_of_beq hposition
            exact hfield.additional htuple hitems
        | some index =>
            have hle := List.getElem?_eq_none_iff.mp (hbeyond tuple index htuple hindex)
            obtain rfl : wildcard = key :=
              (hr.genericSegment_additional h hfield htyped htuple hindex hle).symm.trans hgeneric
            exact hfield.additional htuple hitems
      · exact .inr hstill
  | additionalProperties hmembers => exact .inr (hr.additionalProperties _ _ _ _ hfield hmembers)

/-- **What a generic pointer leads to** is the field there, or a place from where nothing is
moved. -/
theorem located (hgeneric : genericSegments r.arrays [] data = data)
    (hfound : locateFrom? r.schema data = some (.declared path s)) :
    Field r.schema path data s ∨ r.Still path := by
  induction data using List.reverseRecOn generalizing path s with
  | nil =>
      obtain ⟨rfl, rfl⟩ := Found.declared.inj (Option.some.inj hfound)
      exact .inl .root
  | append_singleton data key ih =>
      rw [Pointer.genericSegments_concat_eq] at hgeneric
      obtain ⟨habove, hkey⟩ := List.append_inj' hgeneric rfl
      rw [habove] at hkey
      rcases Schema.locateFrom?_concat_inv hfound with ⟨above, t, next, hat, hstep, he⟩ |
          ⟨above, -, he⟩
      · cases next with
        | free step => cases he
        | declared step s' =>
            obtain ⟨rfl, rfl⟩ := Found.declared.inj he
            rcases ih habove hat with hfield | hstill
            · exact hr.field_step h hfield (List.cons.inj hkey).1 hstep
            · exact .inr (hstill.of_prefix (List.prefix_append _ _))
      · cases he

end Settled

/-- Lists of nodes settle. -/
theorem settled_nodeOf : ∃ r, of? (nodeOf (.str "array")) = some r ∧ r.Settled := by
  obtain ⟨r, h, hschema, hfolds, hdata, harrays⟩ := of?_nodeOf_array
  have hlibrary : r.library = [("", nodeOf (.str "array"))] := by
    have hall : (of? (nodeOf (.str "array"))).map library =
        some [("", nodeOf (.str "array"))] := rfl
    rw [h] at hall
    exact Option.some.inj hall
  have hapart : Apart r.schemaFolds r.arrays := by
    rw [hfolds, harrays]
    exact Pointer.apart_of_paths [(["properties", "children", "items"], [])] (by decide)
      (by decide) (by decide)
  refine ⟨r, h, ⟨(inStep_nodeOf hschema hfolds hdata harrays).1, ?_, ?_, ?_, ?_, ?_, ?_⟩⟩
  · intro path place s hfield
    rw [hschema] at hfield
    rw [hapart.shorten_ofSegments]
    simp only [Refers, hfolds, harrays]
    rcases field_nodeOf hfield with ⟨rfl, -, -⟩ | ⟨rfl, -, -⟩ | ⟨rfl, -, -⟩ | ⟨rfl, -, -⟩
    · exact .inl rfl
    · exact .inl rfl
    · exact .inl rfl
    · exact .inr ⟨[], rfl, rfl⟩
  · intro path place s members hfield hitems
    rw [hschema] at hfield
    rcases field_nodeOf hfield with ⟨-, -, rfl⟩ | ⟨-, -, rfl⟩ | ⟨-, -, rfl⟩ | ⟨-, -, rfl⟩
    · cases hitems
    · cases hitems
    · exact .inl rfl
    · cases hitems
  · intro path place s members hfield hitems
    rw [hschema] at hfield
    rcases field_nodeOf hfield with ⟨-, -, rfl⟩ | ⟨-, -, rfl⟩ | ⟨-, -, rfl⟩ | ⟨-, -, rfl⟩ <;>
      cases hitems
  · intro path place s members hfield hmembers
    rw [hschema] at hfield
    rcases field_nodeOf hfield with ⟨-, -, rfl⟩ | ⟨-, -, rfl⟩ | ⟨-, -, rfl⟩ | ⟨-, -, rfl⟩ <;>
      cases hmembers
  · intro path place s first rest target hfield htuple
    rw [hschema] at hfield
    rcases field_nodeOf hfield with ⟨-, -, rfl⟩ | ⟨-, -, rfl⟩ | ⟨-, -, rfl⟩ | ⟨-, -, rfl⟩ <;>
      cases htuple
  · intro data found _ hnone
    rw [hlibrary, Table.get?_cons, if_neg, Table.get?_nil]
    intro he
    obtain hroot : [] = found.path := Pointer.ofSegments_injective he
    rw [← hroot] at hnone
    cases hnone

end Resolved

end SchemaForm
