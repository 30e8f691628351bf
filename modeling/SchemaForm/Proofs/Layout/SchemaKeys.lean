/-
Schema pointers under data tables.

A schema pointer is shortened by its own rules, and brought to generic form by the table of the
arrays of the data.  So a segment of it that is a number may be taken for a list position
(`Resolved.Taken`), where an array of the data has the pointer that stands in front of it.  A schema
pointer that no rule moves up is its own shallowest equivalent, and leads where it led, if and only
if no segment of it is so taken (`schemaKey_unmoved_iff`).  That takes an array whose pointer in the
data begins like the schema pointer, one in a property called `properties` say.
-/
import SchemaForm.Layout.Context
import SchemaForm.Proofs.Pointer.Wildcards
import SchemaForm.Proofs.Reference.NormalForm
import SchemaForm.Proofs.Reference.Recorded

namespace SchemaForm

/-! ## Schema pointers -/

namespace Resolved

variable {r : Resolved} {document : Json} {path : List String}

/-- A segment of the schema path is taken for a list position of the array of the data whose
pointer stands in front of it. -/
def Taken (r : Resolved) (path : List String) : Prop :=
  ∃ above key below, path = above ++ key :: below ∧ Pointer.ListPosition r.arrays above key

/-- Such an array is an array schema of the document: what stands in front of the segment is its
pointer in the data, and the segment is a number that is none of its fixed positions. -/
theorem Taken.exists_array (h : r.Taken path) (hr : of? document = some r) :
    ∃ above key below index, path = above ++ key :: below ∧ Pointer.index? key = some index ∧
      ∃ object ∈ Schema.objects r.schema, isArray object.2 = true ∧
        Schema.toDataPointer? r.schema object.1 = some (Pointer.ofSegments above) ∧
        tupleLength object.2 ≤ index := by
  obtain ⟨above, key, below, hpath, index, fixed, hindex, hfixed, hle⟩ := h
  obtain ⟨object, hobject, harray, hplace, hlength⟩ := arrays_noted hr _ (Table.mem_of_get? hfixed)
  exact ⟨above, key, below, index, hpath, hindex, object, hobject, harray, hplace, hlength ▸ hle⟩

end Resolved

namespace Setup

variable {s : Setup} {document v : Json} {path : List String}

/-- What no rule moves up is moved if and only if a segment is taken. -/
theorem schemaKey_eq_iff (hclear : ∀ rule ∈ s.resolved.schemaFolds, Pointer.isFold rule = true →
      Pointer.covers rule.1 (Pointer.ofSegments path) = false) :
    s.schemaKey (Pointer.ofSegments path) = Pointer.ofSegments path ↔ ¬s.resolved.Taken path := by
  have hgeneric : Pointer.toGeneric s.resolved.arrays (Pointer.ofSegments path) =
      Pointer.ofSegments path ↔ ¬s.resolved.Taken path := by
    rw [Pointer.toGeneric_eq_iff]
    constructor
    · rintro h ⟨above, key, below, he, htaken⟩
      exact h above key below he htaken
    · exact fun h above key below he htaken => h ⟨above, key, below, he, htaken⟩
  rw [← hgeneric]
  constructor
  · intro h
    rw [← h]
    exact Pointer.shorten_generic _ _ _
  · intro h
    exact Pointer.NormalForm.shorten ⟨h, hclear⟩

/-- **Schema pointers that no rule moves stay.**  The pointer of a value of the resolved schema,
at or below the source of no rule that moves pointers up, is its own shallowest equivalent, and so
leads to that value still, if and only if no segment of it is taken for a list position.  A segment
that is taken has the data pointer of an array schema in front of it, and is a number that is none
of the fixed positions of that array. -/
theorem schemaKey_unmoved_iff (hr : Resolved.of? document = some s.resolved)
    (hv : s.schema.follow? path = some v)
    (hclear : ∀ rule ∈ s.resolved.schemaFolds, Pointer.isFold rule = true →
      Pointer.covers rule.1 (Pointer.ofSegments path) = false) :
    (¬s.resolved.Taken path ↔
        s.schemaKey (Pointer.ofSegments path) = Pointer.ofSegments path ∧
          s.schema.at? (s.schemaKey (Pointer.ofSegments path)) = some v) ∧
      (s.resolved.Taken path → ∃ above key below index, path = above ++ key :: below ∧
        Pointer.index? key = some index ∧
        ∃ object ∈ Schema.objects s.schema, Resolved.isArray object.2 = true ∧
          Schema.toDataPointer? s.schema object.1 = some (Pointer.ofSegments above) ∧
          Resolved.tupleLength object.2 ≤ index) := by
  refine ⟨?_, fun htaken => htaken.exists_array hr⟩
  rw [← schemaKey_eq_iff hclear]
  constructor
  · intro hsame
    refine ⟨hsame, ?_⟩
    rw [hsame, Json.at?_ofSegments, hv]
  · exact And.left

/-- The second place of a fixed list that is called `items`, in a schema that repeats itself
elsewhere. -/
theorem schemaKey_unmoved_iff_point :
    let point : Json := .obj [("type", .str "array"),
      ("items", .arr [.obj [], .obj [("type", .str "number")]])]
    let next : Json := .obj [("$ref", .str "#")]
    let document : Json := .obj [("properties", .obj [("items", point), ("next", next)])]
    ∃ s : Setup, Resolved.of? document = some s.resolved ∧
      s.resolved.schemaFolds = [("/properties/next", "")] ∧
      s.resolved.arrays = [("/items", 2)] ∧
      s.schemaKey "/properties/items/items/1" = "/properties/items/items/1" := by
  intro point next document
  let path := ["properties", "items", "items", "1"]
  have hresolved : ((Resolved.of? document).any fun r => (r.schema.follow? path).isSome &&
      r.schemaFolds == [("/properties/next", "")] && r.arrays == [("/items", 2)]) = true := by
    decide +kernel
  obtain ⟨r, hr, hread⟩ := (Option.any_eq_true _ _).mp hresolved
  simp only [Bool.and_eq_true, beq_iff_eq] at hread
  obtain ⟨⟨hv, hfolds⟩, harrays⟩ := hread
  obtain ⟨v, hv⟩ := Option.isSome_iff_exists.mp hv
  let s : Setup := { (default : Setup) with resolved := r }
  have hclear : ∀ rule ∈ s.resolved.schemaFolds, Pointer.isFold rule = true →
      Pointer.covers rule.1 (Pointer.ofSegments path) = false := by
    show ∀ rule ∈ r.schemaFolds, _
    rw [hfolds, List.forall_mem_singleton]
    exact fun _ => by decide
  have huntaken : ¬s.resolved.Taken path := by
    refine (schemaKey_eq_iff hclear).mp (Pointer.NormalForm.shorten ⟨?_, hclear⟩)
    show Pointer.toGeneric r.arrays _ = _
    rw [harrays]
    decide
  obtain ⟨hiff, -⟩ := schemaKey_unmoved_iff (s := s) hr hv hclear
  exact ⟨s, hr, hfolds, harrays, (hiff.mp huntaken).1⟩

/-- A property that is named like a number, beside a list that is named like a keyword. -/
theorem not_schemaKey_unmoved : ¬∀ (s : Setup) (document v : Json) (path : List String),
    Resolved.of? document = some s.resolved → s.schema.follow? path = some v →
      (∀ rule ∈ s.resolved.schemaFolds, Pointer.isFold rule = true →
        Pointer.covers rule.1 (Pointer.ofSegments path) = false) →
      s.schemaKey (Pointer.ofSegments path) = Pointer.ofSegments path := by
  intro h
  let text : Json := .obj [("type", .str "string")]
  let document : Json := .obj [("properties", .obj
    [("properties", .obj [("type", .str "array"), ("items", text)]), ("3", text)])]
  obtain ⟨r, hr, hschema, hfolds, harrays⟩ : ∃ r, Resolved.of? document = some r ∧
      r.schema = document ∧ r.schemaFolds = [] ∧ r.arrays = [("/properties", 0)] :=
    ⟨_, rfl, rfl, rfl, rfl⟩
  let s : Setup := { (default : Setup) with resolved := r }
  have hv : s.schema.follow? ["properties", "3"] = some text := by
    show r.schema.follow? ["properties", "3"] = _
    rw [hschema]
    rfl
  have hclear : ∀ rule ∈ s.resolved.schemaFolds, Pointer.isFold rule = true →
      Pointer.covers rule.1 (Pointer.ofSegments ["properties", "3"]) = false := by
    show ∀ rule ∈ r.schemaFolds, _
    rw [hfolds]
    exact fun _ hm => absurd hm List.not_mem_nil
  have hlist : Pointer.ListPosition r.arrays ["properties"] "3" := by
    rw [harrays]
    exact ⟨3, 0, by decide, by decide, Nat.zero_le 3⟩
  exact (schemaKey_eq_iff hclear).mp (h s document text _ hr hv hclear)
    ⟨["properties"], "3", [], rfl, hlist⟩

end Setup

end SchemaForm
