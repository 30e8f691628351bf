/-
Templates where nothing is folded.

A template is asked for under the shallowest equivalent of a place.  Where no data pointer is
folded into a shallower one, that is the place itself in generic form, and it begins with the
property of the form that the place is in.  So no two properties share a template
(`Setup.Unfolded.apart`).
-/
import SchemaForm.Proofs.Layout.Twins
import SchemaForm.Proofs.Pointer.Names
import SchemaForm.Proofs.Reference.Shallowest

namespace SchemaForm

open Pointer (ofSegments child item anyItem wildcard)

namespace Pointer

theorem genericSegments_head (arrays : ArrayTable) (name : String) (rest : List String) :
    ∃ more, genericSegments arrays [] (name :: rest) = genericSegment arrays [] name :: more := by
  obtain ⟨more, hmore⟩ := prefix_genericSegments arrays [genericSegment arrays [] name] rest
  exact ⟨more, hmore.symm⟩

end Pointer

namespace Generate

variable {ctx : Setup} {r r' : Request} {name key place layoutPointer : String} {kind : ItemKind}
  {removable : Bool} {schemaPointer pointer : String}

/-- The request is for data at or below the property of the form. -/
def Request.InProperty (r : Request) (name : String) : Prop :=
  ∃ above data rest, r.above = ofSegments above ∧ r.dataPointer = ofSegments data ∧
    above ++ data = name :: rest

/-- The place is at or below that of the property. -/
def PlaceIn (ctx : Setup) (name place : String) : Prop :=
  ∃ rest, place = ofSegments (Pointer.genericSegment ctx.resolved.arrays [] name :: rest)

theorem inProperty_property (layoutPointer name : String) :
    (propertyRequest {} layoutPointer name).InProperty name :=
  ⟨[], [name], [], rfl, Pointer.child_ofSegments [] name, rfl⟩

namespace Request.InProperty

/-- What is one step below is in the property, too. -/
theorem below (h : r.InProperty name) (habove : r'.above = r.above)
    (hdata : r'.dataPointer = child r.dataPointer key) : r'.InProperty name := by
  obtain ⟨above, data, rest, hr, hdata', hname⟩ := h
  refine ⟨above, data ++ [key], rest ++ [key], habove.trans hr, ?_, ?_⟩
  · rw [hdata, hdata', Pointer.child_ofSegments]
  · rw [← List.append_assoc, hname]
    rfl

/-- The place of a request in its shallowest form. -/
theorem dataKey (h : r.InProperty name) (hctx : ctx.Unfolded) (more : List String) :
    ∃ rest, ctx.dataKey (r.fullPointer ++ ofSegments more) = ofSegments
      (Pointer.genericSegments ctx.resolved.arrays
        (Pointer.genericSegment ctx.resolved.arrays [] name :: rest) more) := by
  obtain ⟨above, data, rest, hr, hdata, hname⟩ := h
  obtain ⟨more', hmore⟩ := Pointer.genericSegments_head ctx.resolved.arrays name rest
  refine ⟨more', ?_⟩
  rw [hctx.dataKey, Setup.generic, Request.fullPointer, hr, hdata, ← Pointer.ofSegments_append,
    hname, ← Pointer.ofSegments_append, Pointer.toGeneric_ofSegments,
    Pointer.genericSegments_append, hmore]

theorem placeIn (h : r.InProperty name) (hctx : ctx.Unfolded) :
    PlaceIn ctx name (ctx.dataKey r.fullPointer) := by
  obtain ⟨rest, hrest⟩ := h.dataKey hctx []
  have hnil : ofSegments [] = "" := rfl
  rw [hnil, String.append_empty] at hrest
  exact ⟨rest, hrest⟩

theorem site_name (h : r.InProperty name) (hctx : ctx.Unfolded) (layoutPointer : String) :
    ∃ rest, (siteAt ctx r layoutPointer).name = anyItem
      (ofSegments (Pointer.genericSegment ctx.resolved.arrays [] name :: rest)) := by
  obtain ⟨rest, hrest⟩ := h.dataKey hctx [wildcard]
  refine ⟨rest, ?_⟩
  have hitem : anyItem r.fullPointer = r.fullPointer ++ ofSegments [wildcard] :=
    Pointer.anyItem_eq_append r.fullPointer
  show ctx.dataKey (anyItem r.fullPointer) = _
  rw [hitem, hrest, Pointer.anyItem_ofSegments]
  show ofSegments (_ ++ [Pointer.genericSegment _ _ wildcard]) = _
  rw [Pointer.genericSegment_wildcard]

/-- The template of an item is asked for where its array is, if it is not relative. -/
theorem above_nil (hctx : ctx.Unfolded) {above data : List String}
    (habove : r.above = ofSegments above) (hdata : r.dataPointer = ofSegments data)
    (hown : (siteAt ctx r layoutPointer).relative = false) : above = [] := by
  have hname : ctx.dataKey (anyItem r.fullPointer) = anyItem (ctx.generic r.dataPointer) := by
    simpa [siteAt, arraySite] using hown
  rw [hctx.dataKey, Setup.generic, Setup.generic, Request.fullPointer, habove, hdata,
    ← Pointer.ofSegments_append, Pointer.anyItem_ofSegments, Pointer.toGeneric_ofSegments,
    Pointer.toGeneric_ofSegments, Pointer.anyItem_ofSegments] at hname
  have hlength := congrArg List.length (Pointer.ofSegments_injective hname)
  simp only [Pointer.length_genericSegments, List.length_append, List.length_nil,
    List.length_singleton] at hlength
  exact List.length_eq_zero_iff.mp (by omega)

/-- The templates of items are in the property. -/
theorem itemTemplate (h : r.InProperty name) (hctx : ctx.Unfolded)
    (hitem : pointer = child r.dataPointer key) :
    (itemTemplate r (siteAt ctx r layoutPointer) kind removable schemaPointer
      pointer).InProperty name := by
  obtain ⟨above, data, rest, hr, hdata, hname⟩ := h
  have hbelow : above ++ (data ++ [key]) = name :: (rest ++ [key]) := by
    rw [← List.append_assoc, hname]
    rfl
  unfold Generate.itemTemplate
  cases hown : (siteAt ctx r layoutPointer).relative with
  | true =>
      refine ⟨above ++ (data ++ [key]), [], rest ++ [key], ?_, rfl, ?_⟩
      · show r.above ++ pointer = _
        rw [hitem, hr, hdata, Pointer.child_ofSegments, ← Pointer.ofSegments_append]
      · rw [List.append_nil, hbelow]
  | false =>
      obtain rfl := above_nil hctx hr hdata hown
      refine ⟨[], data ++ [key], rest ++ [key], rfl, ?_, hbelow⟩
      show pointer = _
      rw [hitem, hdata, Pointer.child_ofSegments]

theorem held (h : r.InProperty name) (hheld : r.Holds ctx r') : r'.InProperty name := by
  cases hheld with
  | property layoutPointer hschema hproperties hname => exact h.below rfl rfl
  | fixed layoutPointer hschema htuple hindex => exact h.below rfl (Pointer.item_eq_child _ _)

theorem asked (h : r.InProperty name) (hctx : ctx.Unfolded) (hasked : r.Asks ctx place r') :
    PlaceIn ctx name place ∧ r'.InProperty name := by
  cases hasked with
  | @tuple _ _ index layoutPointer hschema htuple hindex =>
      refine ⟨?_, h.itemTemplate hctx (Pointer.item_eq_child _ _)⟩
      obtain ⟨rest, hrest⟩ := h.site_name hctx layoutPointer
      refine ⟨rest ++ [Nat.repr index], ?_⟩
      rw [tupleName, hrest, Pointer.dropEnd?_anyItem, Option.getD_some]
      exact Pointer.item_ofSegments _ _
  | list layoutPointer removable hschema hkeyword =>
      refine ⟨?_, h.itemTemplate hctx (Pointer.anyItem_eq_child _)⟩
      obtain ⟨rest, hrest⟩ := h.site_name hctx layoutPointer
      exact ⟨rest ++ [wildcard], hrest.trans (Pointer.anyItem_ofSegments _)⟩
  | target c hschema htype =>
      refine ⟨h.placeIn hctx, ?_⟩
      obtain ⟨above, data, rest, hr, hdata, hname⟩ := h
      refine ⟨above ++ data, [], rest, ?_, rfl, ?_⟩
      · show r.above ++ r.dataPointer = _
        rw [hr, hdata, Pointer.ofSegments_append]
      · rw [List.append_nil, hname]

theorem of_below (h : r.InProperty name) (hctx : ctx.Unfolded) (hbelow : r.Below ctx r') :
    r'.InProperty name := by
  induction hbelow with
  | refl => exact h
  | held _ hheld ih => exact ih.held hheld
  | asked _ hasked ih => exact (ih.asked hctx hasked).2

end Request.InProperty

end Generate

/-- **Apart.**  Where nothing is folded no two properties of the form share a template. -/
theorem Setup.Unfolded.apart {s : Setup} {name other layoutPointer place : String}
    (h : s.Unfolded) (hgeneric : s.generic (child "" name) = child "" name)
    (halone : s.generic (child "" other) = child "" name → other = name) (hne : other ≠ name)
    (hasks : (Generate.propertyRequest {} layoutPointer other).AsksFor s place) :
    ¬(Generate.propertyRequest {} layoutPointer name).AsksFor s place := by
  have hin : ∀ key, (Generate.propertyRequest {} layoutPointer key).AsksFor s place →
      Generate.PlaceIn s key place := by
    rintro key ⟨r, r', hbelow, hasked⟩
    exact (((Generate.inProperty_property layoutPointer key).of_below h hbelow).asked h hasked).1
  have hone : ∀ key, s.generic (child "" key) =
      ofSegments [Pointer.genericSegment s.resolved.arrays [] key] := by
    intro key
    rw [Setup.generic, Pointer.child_root, Pointer.toGeneric_ofSegments]
    rfl
  intro hown
  obtain ⟨rest, hrest⟩ := hin other hasks
  obtain ⟨rest', hrest'⟩ := hin name hown
  have hsame := (List.cons.inj (Pointer.ofSegments_injective (hrest.symm.trans hrest'))).1
  rw [hone] at hgeneric
  refine hne (halone ?_)
  rw [hone, hsame, hgeneric]

end SchemaForm
