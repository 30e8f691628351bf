/-
What the tables of a resolved document hold.

Every rule of the two tables is for a schema object of the expanded schema with a text under
`$ref`: from the place of the object to the one that the text names, and the same for what the
two places describe in the data.
-/
import SchemaForm.Proofs.Reference.Folds
import SchemaForm.Proofs.Reference.Strayed

namespace SchemaForm

namespace Pointer

theorem isPointer_iff {text : String} :
    isPointer text = true ↔ ∃ path, segments? text = some path := by
  rw [← segments?_isSome, Option.isSome_iff_exists]

theorem normalize_of_segments? {text : String} {path : List String}
    (h : segments? text = some path) : normalize text = ofSegments path := by
  rw [normalize, h]

theorem isPointer_of_normalize {text : String} (h : isPointer (normalize text) = true) :
    isPointer text = true := by
  rwa [← segments?_isSome, segments?_normalize, segments?_isSome] at h

end Pointer

namespace Schema

theorem reference?_eq_some {members : Members} {text : String} :
    reference? members = some text ↔
      Table.get? members "$ref" = some (.str text) ∧ Pointer.isPointer text = true := by
  rw [reference?, Option.filter_eq_some_iff, Option.bind_eq_some_iff]
  refine and_congr_left fun _ => ?_
  constructor
  · rintro ⟨v, hv, hstr⟩
    cases v with
    | str found => exact Option.some.inj hstr ▸ hv
    | _ => cases hstr
  · intro hv
    exact ⟨.str text, hv, rfl⟩

end Schema

namespace Resolved

/-- The rule is for a text under the `$ref` of a schema object of the schema. -/
def Noted (schema : Json) (rule : String × String) : Prop :=
  ∃ object ∈ Schema.objects schema, ∃ text, Table.get? object.2 "$ref" = some (.str text) ∧
    rule = (object.1, Pointer.normalize text)

/-- The rule is for what the two places of a noted rule describe. -/
def NotedData (schema : Json) (rule : String × String) : Prop :=
  ∃ noted, Noted schema noted ∧ Schema.toDataPointer? schema noted.1 = some rule.1 ∧
    Schema.toDataPointer? schema noted.2 = some rule.2

theorem noteArray_schemaFolds (r : Resolved) (place : String) (members : Members) :
    (r.noteArray place members).schemaFolds = r.schemaFolds := by
  unfold noteArray
  split
  · split <;> rfl
  · rfl

/-- Rules that are noted for what is listed stay so when another object is noted. -/
theorem note_noted {r : Resolved} {object : String × Members}
    (hm : object ∈ Schema.objects r.schema) (hrules : ∀ rule ∈ r.schemaFolds, Noted r.schema rule)
    (hdata : ∀ rule ∈ r.dataFolds, NotedData r.schema rule) :
    (∀ rule ∈ (r.note object).schemaFolds, Noted r.schema rule) ∧
      ∀ rule ∈ (r.note object).dataFolds, NotedData r.schema rule := by
  rw [note, noteArray_schemaFolds, noteArray_dataFolds]
  unfold noteReference
  split
  · exact ⟨hrules, hdata⟩
  · next text htext =>
      have hget : Table.get? object.2 "$ref" = some (.str text) := by
        obtain ⟨v, hv, hstr⟩ := Option.bind_eq_some_iff.mp htext
        cases v with
        | str found => exact Option.some.inj hstr ▸ hv
        | _ => cases hstr
      have hnoted : Noted r.schema (object.1, Pointer.normalize text) :=
        ⟨object, hm, text, hget, rfl⟩
      constructor
      · intro rule hrule
        rcases Table.mem_insertSorted hrule with rfl | hrule
        · exact hnoted
        · exact hrules rule hrule
      · dsimp only
        split
        · next hsource htarget =>
            intro rule hrule
            rcases Table.mem_insertSorted hrule with rfl | hrule
            · exact ⟨_, hnoted, hsource, htarget⟩
            · exact hdata rule hrule
        · exact hdata

theorem foldl_note_noted {objects : List (String × Members)} {r : Resolved}
    (hsub : objects ⊆ Schema.objects r.schema)
    (hrules : ∀ rule ∈ r.schemaFolds, Noted r.schema rule)
    (hdata : ∀ rule ∈ r.dataFolds, NotedData r.schema rule) :
    (∀ rule ∈ (objects.foldl note r).schemaFolds, Noted r.schema rule) ∧
      ∀ rule ∈ (objects.foldl note r).dataFolds, NotedData r.schema rule := by
  induction objects generalizing r with
  | nil => exact ⟨hrules, hdata⟩
  | cons object objects ih =>
      obtain ⟨hm, hsub⟩ := List.cons_subset.mp hsub
      obtain ⟨hrules, hdata⟩ := note_noted hm hrules hdata
      have hschema := note_schema r object
      rw [← hschema] at hsub hrules hdata ⊢
      exact ih hsub hrules hdata

/-- **Where the rules come from.** -/
theorem rules_noted {document : Json} {r : Resolved} (h : of? document = some r) :
    (∀ rule ∈ r.schemaFolds, Noted r.schema rule) ∧
      ∀ rule ∈ r.dataFolds, NotedData r.schema rule := by
  obtain ⟨schema, -, h⟩ := Option.bind_eq_some_iff.mp h
  obtain ⟨library, -, h⟩ := Option.bind_eq_some_iff.mp h
  obtain rfl := Option.some.inj h
  rw [foldl_note_schema]
  refine foldl_note_noted (List.Subset.refl _) ?_ ?_
  · exact fun rule hrule => absurd hrule List.not_mem_nil
  · exact fun rule hrule => absurd hrule List.not_mem_nil

end Resolved

end SchemaForm
