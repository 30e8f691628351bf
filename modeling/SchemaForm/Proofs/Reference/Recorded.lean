/-
What goes on record when a document is resolved.

The tables of a resolved document are filled object by object.  An entry that is written when an
object is noted is there in the end, if with another value: every schema object with a text under
`$ref` has a schema rule, with a data rule where both places describe data, and every array schema
that does has its fixed positions on record.  And every array on record is such a schema.
-/
import SchemaForm.Proofs.Reference.Rules

namespace SchemaForm

namespace Resolved

variable {r : Resolved} {document : Json} {object : String × Members} {text place : String}

/-- Whether the schema's fixed positions go on record. -/
def isArray (members : Members) : Bool :=
  Schema.isTyped (.obj members) "array" &&
    (Table.has members "items" || Table.has members "additionalItems")

/-- A resolved document is filled in from empty tables. -/
theorem exists_start (h : of? document = some r) : ∃ start : Resolved,
    start.arrays = [] ∧ start.schema = r.schema ∧
      (Schema.objects r.schema).foldl note start = r := by
  obtain ⟨schema, -, h⟩ := Option.bind_eq_some_iff.mp h
  obtain ⟨library, -, h⟩ := Option.bind_eq_some_iff.mp h
  obtain rfl := Option.some.inj h
  rw [foldl_note_schema]
  exact ⟨_, rfl, rfl, rfl⟩

/-- What is so once an object is noted, and stays so when others are, is so in the end. -/
theorem noted_of_mem {P : Resolved → Prop} (h : of? document = some r)
    (hm : object ∈ Schema.objects r.schema)
    (sets : ∀ s : Resolved, s.schema = r.schema → P (s.note object))
    (keeps : ∀ (s : Resolved) (other : String × Members), P s → P (s.note other)) : P r := by
  obtain ⟨start, -, hschema, hr⟩ := exists_start h
  have hkept : ∀ (objects : List (String × Members)) (s : Resolved), P s →
      P (objects.foldl note s) := by
    intro objects
    induction objects with
    | nil => exact fun s hs => hs
    | cons other objects ih => exact fun s hs => ih _ (keeps s other hs)
  have hset : ∀ (objects : List (String × Members)) (s : Resolved), s.schema = r.schema →
      object ∈ objects → P (objects.foldl note s) := by
    intro objects
    induction objects with
    | nil => exact fun s _ hm => absurd hm List.not_mem_nil
    | cons other objects ih =>
        intro s hs hm
        rcases List.mem_cons.mp hm with rfl | hm
        · exact hkept objects _ (sets s hs)
        · exact ih _ ((note_schema s other).trans hs) hm
  rw [← hr]
  exact hset _ _ hschema hm

theorem noteArray_arrays (s : Resolved) (place : String) (members : Members) :
    (s.noteArray place members).arrays =
      match isArray members, Schema.toDataPointer? s.schema place with
      | true, some pointer => Table.insert s.arrays pointer (tupleLength members)
      | _, _ => s.arrays := by
  unfold noteArray isArray
  split
  · next harray =>
      rw [harray]
      split <;> next he => simp only [he]
  · next harray =>
      rw [Bool.not_eq_true] at harray
      rw [harray]

theorem noteReference_arrays (s : Resolved) (place : String) (members : Members) :
    (s.noteReference place members).arrays = s.arrays := by
  unfold noteReference
  split <;> rfl

theorem noteReference_schema (s : Resolved) (place : String) (members : Members) :
    (s.noteReference place members).schema = s.schema := by
  unfold noteReference
  split <;> rfl

theorem note_arrays (s : Resolved) (object : String × Members) :
    (s.note object).arrays =
      match isArray object.2, Schema.toDataPointer? s.schema object.1 with
      | true, some pointer => Table.insert s.arrays pointer (tupleLength object.2)
      | _, _ => s.arrays := by
  rw [note, noteArray_arrays, noteReference_schema, noteReference_arrays]

theorem note_schemaFolds (s : Resolved) (object : String × Members) :
    (s.note object).schemaFolds =
      match (Table.get? object.2 "$ref").bind Json.str? with
      | some text => Table.insertSorted s.schemaFolds object.1 (Pointer.normalize text)
      | none => s.schemaFolds := by
  rw [note, noteArray_schemaFolds]
  unfold noteReference
  split <;> next he => rw [he]

theorem note_dataFolds (s : Resolved) (object : String × Members) :
    (s.note object).dataFolds =
      match (Table.get? object.2 "$ref").bind Json.str? with
      | some text =>
          match Schema.toDataPointer? s.schema object.1,
              Schema.toDataPointer? s.schema (Pointer.normalize text) with
          | some source, some target => Table.insertSorted s.dataFolds source target
          | _, _ => s.dataFolds
      | none => s.dataFolds := by
  rw [note, noteArray_dataFolds]
  unfold noteReference
  cases (Table.get? object.2 "$ref").bind Json.str? with
  | none => rfl
  | some text => rfl

section Recorded

variable (h : of? document = some r) (hm : object ∈ Schema.objects r.schema)

include h hm

/-- A schema object with a text under `$ref` has a schema rule. -/
theorem schemaFolds_recorded (htext : Table.get? object.2 "$ref" = some (.str text)) :
    ∃ target, Table.get? r.schemaFolds object.1 = some target := by
  refine noted_of_mem (P := fun s => ∃ target, Table.get? s.schemaFolds object.1 = some target)
    h hm ?_ ?_
  · intro s _
    rw [note_schemaFolds, htext]
    exact ⟨_, (Table.get?_insertSorted _ _ _ _).trans (if_pos rfl)⟩
  · rintro s other ⟨target, htarget⟩
    rw [note_schemaFolds]
    split
    · rw [Table.get?_insertSorted]
      split
      · exact ⟨_, rfl⟩
      · exact ⟨target, htarget⟩
    · exact ⟨target, htarget⟩

/-- Where a place and what it names describe data there is a data rule. -/
theorem dataFolds_recorded {source target : String}
    (htext : Table.get? object.2 "$ref" = some (.str text))
    (hsource : Schema.toDataPointer? r.schema object.1 = some source)
    (htarget : Schema.toDataPointer? r.schema (Pointer.normalize text) = some target) :
    ∃ target, Table.get? r.dataFolds source = some target := by
  refine noted_of_mem (P := fun s => ∃ target, Table.get? s.dataFolds source = some target)
    h hm ?_ ?_
  · intro s hs
    rw [note_dataFolds, htext, hs]
    simp only [Option.bind_some, Json.str?, hsource, htarget]
    exact ⟨_, (Table.get?_insertSorted _ _ _ _).trans (if_pos rfl)⟩
  · rintro s other ⟨found, hfound⟩
    rw [note_dataFolds]
    split
    · split
      · rw [Table.get?_insertSorted]
        split
        · exact ⟨_, rfl⟩
        · exact ⟨found, hfound⟩
      · exact ⟨found, hfound⟩
    · exact ⟨found, hfound⟩

/-- An array schema that describes data is on record. -/
theorem arrays_recorded (harray : isArray object.2 = true)
    (hplace : Schema.toDataPointer? r.schema object.1 = some place) :
    ∃ fixed, Table.get? r.arrays place = some fixed := by
  refine noted_of_mem (P := fun s => ∃ fixed, Table.get? s.arrays place = some fixed) h hm ?_ ?_
  · intro s hs
    rw [note_arrays, harray, hs, hplace]
    exact ⟨_, (Table.get?_insert _ _ _ _).trans (if_pos rfl)⟩
  · rintro s other ⟨found, hfound⟩
    rw [note_arrays]
    split
    · rw [Table.get?_insert]
      split
      · exact ⟨_, rfl⟩
      · exact ⟨found, hfound⟩
    · exact ⟨found, hfound⟩

end Recorded

/-- Every array on record is an array schema that describes data. -/
theorem arrays_noted (h : of? document = some r) : ∀ entry ∈ r.arrays,
    ∃ object ∈ Schema.objects r.schema, isArray object.2 = true ∧
      Schema.toDataPointer? r.schema object.1 = some entry.1 ∧
      entry.2 = tupleLength object.2 := by
  obtain ⟨start, hempty, hschema, hr⟩ := exists_start h
  have hall : ∀ objects ⊆ Schema.objects r.schema, ∀ s : Resolved, s.schema = r.schema →
      (∀ entry ∈ s.arrays, ∃ object ∈ Schema.objects r.schema, isArray object.2 = true ∧
        Schema.toDataPointer? r.schema object.1 = some entry.1 ∧
        entry.2 = tupleLength object.2) →
      ∀ entry ∈ (objects.foldl note s).arrays, ∃ object ∈ Schema.objects r.schema,
        isArray object.2 = true ∧ Schema.toDataPointer? r.schema object.1 = some entry.1 ∧
        entry.2 = tupleLength object.2 := by
    intro objects hsub
    induction objects with
    | nil => exact fun s _ hs => hs
    | cons object objects ih =>
        obtain ⟨hm, hsub⟩ := List.cons_subset.mp hsub
        intro s hs harrays
        refine ih hsub _ ((note_schema s object).trans hs) fun entry hentry => ?_
        rw [note_arrays] at hentry
        split at hentry
        · next harray hplace =>
            rcases Table.mem_insert hentry with rfl | hentry
            · exact ⟨object, hm, harray, hs ▸ hplace, rfl⟩
            · exact harrays entry hentry
        · exact harrays entry hentry
  have hstart := hall _ (List.Subset.refl _) start hschema fun entry hentry => by
    rw [hempty] at hentry
    exact absurd hentry List.not_mem_nil
  rwa [hr] at hstart

end Resolved

end SchemaForm
