/-
Schema rules and data rules in step.

A reference moves a schema pointer up by a schema rule and the pointer of its data up by a data
rule.  `Resolved.InStep` says when the two agree on every field: each reference among the fields
leads to a field above it, what is on record for some data is on record for a field there, and
nothing else is on record at or below a recursive place.  Then the data rules are those of the
references among the fields (`InStep.refers_of_moves`, `InStep.moves_of_refers`), and a segment is
written in its generic form as the schema at hand says (`InStep.genericSegment_property`,
`InStep.genericSegment_position`, `InStep.genericSegment_list`).
-/
import SchemaForm.Proofs.Reference.Inlined
import SchemaForm.Proofs.Reference.Recorded
import SchemaForm.Proofs.Reference.Shallowest
import SchemaForm.Proofs.Schema.Legible

namespace SchemaForm

namespace Resolved

open Pointer (ofSegments Moves Apart shallowest genericSegment genericSegments)
open Schema (Field locateFrom? stepInto?)

variable {r : Resolved} {document : Json} {path place target above : List String} {s t : Json}
  {key : String}

/-- The reference at the schema path names the target. -/
def Refers (r : Resolved) (path target : List String) : Prop :=
  Table.get? r.schemaFolds (ofSegments path) = some (ofSegments target)

/-- Whether a field at or below the schema path is a reference. -/
def HoldsReference (r : Resolved) (path : List String) : Prop :=
  ∃ below place s target, Field r.schema below place s ∧ r.Refers below target ∧ path <+: below

/-- Whether anything goes on record for the data of a schema object. -/
def IsRecorded (members : Members) : Prop :=
  (∃ text, Table.get? members "$ref" = some (.str text)) ∨ isArray members = true

/-- The two tables agree on the fields of the schema. -/
structure InStep (r : Resolved) : Prop where
  /-- Looking up the place of a field leads to the field. -/
  legible : Schema.AllLegible r.schema
  /-- What goes on record for some data is on record for a field: `additionalItems` says
  something of the data only beside a list of item schemas. -/
  fields : ∀ path members place, (ofSegments path, members) ∈ Schema.objects r.schema →
    IsRecorded members → Schema.dataSegments? r.schema path = some place →
      Field r.schema path place (.obj members)
  /-- A reference among the fields names a field whose data is above its own. -/
  upward : ∀ path place s target, Field r.schema path place s → r.Refers path target →
    ∃ above t, Field r.schema target above t ∧ above <+: place
  /-- No data rule is for a place below the one that another is for. -/
  alone : ∀ source target source' target', Moves r.dataFolds source target →
    Moves r.dataFolds source' target' → source <+: source' → source' = source
  /-- No array is on record at or below a place that a data rule is for. -/
  unrecorded : ∀ source target, Moves r.dataFolds source target → ∀ entry ∈ r.arrays,
    Pointer.covers (ofSegments source) entry.1 = false

theorem Refers.unique {target' : List String} (h : r.Refers path target)
    (h' : r.Refers path target') : target' = target :=
  Pointer.ofSegments_injective (Option.some.inj (h'.symm.trans h))

theorem HoldsReference.of_below {below : List String} (h : r.HoldsReference below)
    (hle : path <+: below) : r.HoldsReference path := by
  obtain ⟨field, place, s, target, hfield, hrefers, hbelow⟩ := h
  exact ⟨field, place, s, target, hfield, hrefers, hle.trans hbelow⟩

/-- The pointer of a schema object is written. -/
theorem exists_path {object : String × Members} (hm : object ∈ Schema.objects r.schema) :
    ∃ path, object.1 = ofSegments path := by
  have hroot : object ∈ Schema.objectsFrom (ofSegments []) .schema r.schema := hm
  obtain ⟨more, hmore⟩ := Schema.objectsFrom_below hroot
  exact ⟨more, hmore⟩

theorem dataSegments?_of_toDataPointer? {schema : Json}
    (h : Schema.toDataPointer? schema (ofSegments path) = some (ofSegments place)) :
    Schema.dataSegments? schema path = some place := by
  rw [Schema.toDataPointer?, Pointer.segments?_ofSegments, Option.bind_some] at h
  obtain ⟨found, hfound, he⟩ := Option.map_eq_some_iff.mp h
  rw [hfound, Pointer.ofSegments_injective he]

namespace InStep

variable (hr : r.InStep) (h : of? document = some r)

include hr

/-- A field that goes on record is the object that is found at its place. -/
theorem recorded_found {object : String × Members} (hm : object ∈ Schema.objects r.schema)
    (hrecorded : IsRecorded object.2)
    (hplace : Schema.toDataPointer? r.schema object.1 = some (ofSegments place))
    (hfound : locateFrom? r.schema place = some (.declared path s)) :
    object = (ofSegments path, object.2) ∧ s = .obj object.2 ∧ Field r.schema path place s := by
  obtain ⟨path', hpath'⟩ := exists_path hm
  obtain ⟨pointer, members⟩ := object
  obtain rfl : pointer = ofSegments path' := hpath'
  have hfield := hr.fields _ _ _ hm hrecorded (dataSegments?_of_toDataPointer? hplace)
  have he := hfound.symm.trans (hfield.found hr.legible)
  obtain ⟨rfl, rfl⟩ : path = path' ∧ s = .obj members := by
    simpa only [Option.some.injEq, Schema.Found.declared.injEq] using he
  exact ⟨rfl, rfl, hfield⟩

include h

/-! ## Rules -/

/-- The schema rule of a field is that of its own text. -/
theorem refers_of_text {members : Members} {text : String}
    (hm : (ofSegments path, members) ∈ Schema.objects r.schema)
    (hfield : Field r.schema path place (.obj members))
    (htext : Table.get? members "$ref" = some (.str text))
    (htarget : Pointer.normalize text = ofSegments target) : r.Refers path target := by
  obtain ⟨found, hget⟩ := schemaFolds_recorded h hm htext
  obtain ⟨object, hobject, other, hother, he⟩ := (rules_noted h).1 _ (Table.mem_of_get? hget)
  obtain ⟨hpath, rfl⟩ := Prod.mk.inj he
  have hplace := hfield.toDataPointer? hr.legible
  rw [show ofSegments path = object.1 from hpath] at hplace
  obtain ⟨-, hsame, -⟩ := hr.recorded_found hobject (.inl ⟨other, hother⟩) hplace
    (hfield.found hr.legible)
  rw [← Json.obj.inj hsame, htext] at hother
  obtain rfl := Json.str.inj (Option.some.inj hother)
  rw [htarget] at hget
  exact hget

/-- A reference among the fields is a schema object with a text that names the target. -/
theorem exists_text (hfield : Field r.schema path place s) (hrefers : r.Refers path target) :
    ∃ members text, s = .obj members ∧ (ofSegments path, members) ∈ Schema.objects r.schema ∧
      Table.get? members "$ref" = some (.str text) ∧
      Pointer.normalize text = ofSegments target := by
  obtain ⟨object, hm, text, htext, he⟩ := (rules_noted h).1 _ (Table.mem_of_get? hrefers)
  obtain ⟨hpath, htarget⟩ := Prod.mk.inj he
  have hplace := hfield.toDataPointer? hr.legible
  rw [hpath] at hplace
  obtain ⟨hobject, hs, -⟩ := hr.recorded_found hm (.inl ⟨text, htext⟩) hplace
    (hfield.found hr.legible)
  exact ⟨object.2, text, hs, hobject ▸ hm, htext, htarget.symm⟩

/-- A data rule for a place where a field is found is that of the reference there. -/
theorem refers_of_rule {source : List String}
    (hrule : (ofSegments source, ofSegments above) ∈ r.dataFolds)
    (hfound : locateFrom? r.schema source = some (.declared path s)) :
    ∃ target t, r.Refers path target ∧ Field r.schema target above t := by
  obtain ⟨-, ⟨object, hm, text, htext, rfl⟩, hsource, htarget⟩ := (rules_noted h).2 _ hrule
  obtain ⟨hobject, hs, hfield⟩ := hr.recorded_found hm (.inl ⟨text, htext⟩) hsource hfound
  obtain ⟨target, htargetSegments, hdata⟩ := Option.bind_eq_some_iff.mp htarget
  have hnormal : Pointer.normalize text = ofSegments target := by
    obtain ⟨written, hwritten⟩ := Pointer.isPointer_iff.mp
      (Pointer.isPointer_of_normalize (Pointer.isPointer_iff.mpr ⟨target, htargetSegments⟩))
    rw [Pointer.normalize_of_segments? hwritten, Pointer.segments?_ofSegments]
      at htargetSegments
    rw [Pointer.normalize_of_segments? hwritten, Option.some.inj htargetSegments]
  rw [hobject] at hm
  have hrefers := hr.refers_of_text h hm (hs ▸ hfield) htext hnormal
  obtain ⟨above', t, htargetField, -⟩ := hr.upward _ _ _ _ hfield hrefers
  have hdata' := htargetField.toDataPointer? hr.legible
  rw [← hnormal, htarget] at hdata'
  rw [← Pointer.ofSegments_injective (Option.some.inj hdata')] at htargetField
  exact ⟨target, t, hrefers, htargetField⟩

/-- A reference among the fields has a data rule. -/
theorem rule_of_refers (hfield : Field r.schema path place s) (hrefers : r.Refers path target)
    (htarget : Field r.schema target above t) :
    (ofSegments place, ofSegments above) ∈ r.dataFolds := by
  obtain ⟨members, text, rfl, hm, htext, hnormal⟩ := hr.exists_text h hfield hrefers
  have hsource := hfield.toDataPointer? hr.legible
  have habove := htarget.toDataPointer? hr.legible
  obtain ⟨found, hget⟩ := dataFolds_recorded h hm htext hsource (hnormal ▸ habove)
  have hmem := Table.mem_of_get? hget
  obtain ⟨-, written, hwritten⟩ := dataFolds_written h _ hmem
  obtain rfl : found = ofSegments written := hwritten
  obtain ⟨target', t', hrefers', htarget'⟩ := hr.refers_of_rule h hmem (hfield.found hr.legible)
  obtain rfl := hrefers.unique hrefers'
  have hsame := (htarget.dataSegments? hr.legible).symm.trans
    (htarget'.dataSegments? hr.legible)
  rwa [Option.some.inj hsame]

theorem moves_of_refers (hfield : Field r.schema path place s) (hrefers : r.Refers path target)
    (htarget : Field r.schema target above t) (hne : above ≠ place) :
    Moves r.dataFolds place above := by
  obtain ⟨above', t', htarget', hle⟩ := hr.upward _ _ _ _ hfield hrefers
  have hsame := (htarget.dataSegments? hr.legible).symm.trans
    (htarget'.dataSegments? hr.legible)
  obtain rfl := Option.some.inj hsame
  exact ⟨hr.rule_of_refers h hfield hrefers htarget, hle, hne⟩

/-! ## Generic segments -/

/-- An array on record at a place is the field that is found there. -/
theorem array_of_fixed {fixed : Nat} (hget : Table.get? r.arrays (ofSegments place) = some fixed)
    (hfound : locateFrom? r.schema place = some (.declared path s)) :
    ∃ members, s = .obj members ∧ isArray members = true ∧ fixed = tupleLength members := by
  obtain ⟨object, hm, harray, hplace, hfixed⟩ := arrays_noted h _ (Table.mem_of_get? hget)
  obtain ⟨-, hs, -⟩ := hr.recorded_found hm (.inr harray) hplace hfound
  exact ⟨object.2, hs, harray, hfixed⟩

theorem genericSegment_property (hlegible : Schema.Legible s) {properties : Members}
    (hfound : locateFrom? r.schema place = some (.declared path s))
    (hproperties : (s.get? "properties").bind Json.obj? = some properties)
    (hkey : Table.get? properties key = some t) : genericSegment r.arrays place key = key := by
  unfold Pointer.genericSegment
  split
  · rfl
  · next index hindex =>
      split
      · next fixed hget =>
          obtain ⟨members, rfl, harray, -⟩ := hr.array_of_fixed h hget hfound
          have hlike : Schema.isArrayLike (.obj members) = true := by
            rw [Schema.isArrayLike, (Bool.and_eq_true_iff.mp harray).1, Bool.true_or]
          have hname := hlegible.names hlike properties hproperties _ (Table.mem_of_get? hkey)
          rw [Schema.isPosition, hindex] at hname
          exact absurd hname.symm Bool.false_ne_true
      · rfl

theorem genericSegment_position {tuple : List Json} {index : Nat}
    (hfound : locateFrom? r.schema place = some (.declared path s))
    (htuple : (s.get? "items").bind Json.arr? = some tuple) (ht : tuple[index]? = some t) :
    genericSegment r.arrays place (Nat.repr index) = Nat.repr index := by
  unfold Pointer.genericSegment
  split
  · rfl
  · next i hindex =>
      rw [Pointer.index?_repr] at hindex
      obtain rfl : index = i := Option.some.inj (Option.filter_eq_some_iff.mp hindex).1
      split
      · next fixed hget =>
          obtain ⟨members, rfl, -, rfl⟩ := hr.array_of_fixed h hget hfound
          have hitems : Table.get? members "items" = some (.arr tuple) := Schema.get?_of_arr htuple
          obtain ⟨hlt, -⟩ := List.getElem?_eq_some_iff.mp ht
          rw [tupleLength, hitems, if_neg (Nat.not_le_of_lt hlt)]
      · rfl

/-- A position of an array by name is any position beyond the fixed ones. -/
theorem genericSegment_array {held : Members} {index : Nat}
    (hfield : Field r.schema path place (.obj held)) (harray : isArray held = true)
    (hindex : Pointer.index? key = some index) (hle : tupleLength held ≤ index) :
    genericSegment r.arrays place key = Pointer.wildcard := by
  obtain ⟨fixed, hfixed⟩ := arrays_recorded h hfield.mem_objects harray
    (hfield.toDataPointer? hr.legible)
  obtain ⟨held', he, -, rfl⟩ := hr.array_of_fixed h hfixed (hfield.found hr.legible)
  obtain rfl := Json.obj.inj he
  unfold Pointer.genericSegment
  rw [hindex, hfixed]
  exact if_pos hle

theorem genericSegment_list {members : Members} {index : Nat}
    (hfield : Field r.schema path place s) (htyped : Schema.isTyped s "array" = true)
    (hitems : s.get? "items" = some (.obj members)) (hindex : Pointer.index? key = some index) :
    genericSegment r.arrays place key = Pointer.wildcard := by
  obtain ⟨held, rfl, hget⟩ := Schema.exists_members hitems
  refine hr.genericSegment_array h hfield ?_ hindex ?_
  · rw [isArray, htyped, Table.has, hget]
    rfl
  · rw [tupleLength, hget]
    exact Nat.zero_le index

theorem genericSegment_additional {tuple : List Json} {index : Nat}
    (hfield : Field r.schema path place s) (htyped : Schema.isTyped s "array" = true)
    (htuple : s.get? "items" = some (.arr tuple)) (hindex : Pointer.index? key = some index)
    (hle : tuple.length ≤ index) : genericSegment r.arrays place key = Pointer.wildcard := by
  obtain ⟨held, rfl, hget⟩ := Schema.exists_members htuple
  refine hr.genericSegment_array h hfield ?_ hindex ?_
  · rw [isArray, htyped, Table.has, hget]
    rfl
  · rw [tupleLength, hget]
    exact hle

/-- The place of a field is generic. -/
theorem generic_field (hfield : Field r.schema path place s) :
    genericSegments r.arrays [] place = place := by
  induction hfield with
  | root => rfl
  | property hs hproperties ht ih =>
      rw [Pointer.genericSegments_concat_eq, ih,
        hr.genericSegment_property h (hr.legible _ _ _ hs) (hs.found hr.legible) hproperties ht]
  | position hs htuple ht ih =>
      rw [Pointer.genericSegments_concat_eq, ih,
        hr.genericSegment_position h (hs.found hr.legible) htuple ht]
  | items hs hitems ih =>
      rw [Pointer.genericSegments_concat_eq, ih, Pointer.genericSegment_wildcard]
  | additional hs htuple hadditional ih =>
      rw [Pointer.genericSegments_concat_eq, ih, Pointer.genericSegment_wildcard]

/-- The data rules stand apart. -/
theorem apart : Apart r.dataFolds r.arrays := by
  have hfield : ∀ {source target : List String}, Moves r.dataFolds source target →
      ∃ path s, Field r.schema path source s := by
    intro source target hm
    obtain ⟨-, ⟨object, hobject, text, htext, rfl⟩, hsource, -⟩ := (rules_noted h).2 _ hm.1
    obtain ⟨path, hpath⟩ := exists_path hobject
    rw [hpath] at hsource
    exact ⟨path, _, hr.fields path object.2 source (hpath ▸ hobject) (.inl ⟨text, htext⟩)
      (dataSegments?_of_toDataPointer? hsource)⟩
  refine ⟨fun rule hm _ => dataFolds_written h rule hm, ?_, ?_, ?_⟩
  · intro rule hm hfold
    obtain ⟨source, target, rfl, hmoves⟩ := (dataFolds_written h rule hm).exists_moves hm hfold
    obtain ⟨path, s, hs⟩ := hfield hmoves
    rw [Pointer.toGeneric_ofSegments, hr.generic_field h hs]
  · intro rule hm hfold other hother hfold' hcovers
    obtain ⟨source, target, rfl, hmoves⟩ := (dataFolds_written h rule hm).exists_moves hm hfold
    obtain ⟨source', target', rfl, hmoves'⟩ :=
      (dataFolds_written h other hother).exists_moves hother hfold'
    obtain rfl := hr.alone _ _ _ _ hmoves hmoves' (Pointer.covers_ofSegments.mp hcovers)
    obtain ⟨path, s, hs⟩ := hfield hmoves
    -- Both rules are that of the one reference there.
    obtain ⟨named, t, hrefers, hnamed⟩ := hr.refers_of_rule h hmoves.1 (hs.found hr.legible)
    obtain ⟨named', t', hrefers', hnamed'⟩ := hr.refers_of_rule h hmoves'.1 (hs.found hr.legible)
    obtain rfl := hrefers.unique hrefers'
    have hsame := (hnamed.dataSegments? hr.legible).symm.trans
      (hnamed'.dataSegments? hr.legible)
    rw [Option.some.inj hsame]
  · intro rule hm hfold
    obtain ⟨source, target, rfl, hmoves⟩ := (dataFolds_written h rule hm).exists_moves hm hfold
    exact hr.unrecorded source target hmoves

end InStep

end Resolved

end SchemaForm
