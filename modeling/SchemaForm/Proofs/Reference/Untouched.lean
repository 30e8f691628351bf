/-
Schemas that resolving leaves alone.

A schema object is untouched where it has no reference, no `allOf` list, and no list of required
names on an array (`Untouched`).  Any other `$ref` or `allOf` may stand there, and so may
properties that are named like keywords.  Where every schema object is untouched, the resolved
schema is the document without the definitions at its top, in the order of the document, and
nothing that is looked up under a pointer goes on record (`of?_untouched`).
-/
import SchemaForm.Proofs.Reference.Rules
import SchemaForm.Proofs.Reference.Verbatim

namespace SchemaForm

open Schema (withoutDefinitions)

namespace Schema

variable {members : Members}

/-- A schema object in which nothing is replaced, merged or moved. -/
structure Untouched (members : Members) : Prop where
  noReference : reference? members = none
  noAllOf : ∀ parts, Table.get? members "allOf" ≠ some (.arr parts)
  noRequired : isTyped (.obj members) "array" = true →
    ∀ names, Table.get? members "required" ≠ some (.arr names)

/-- The document without the definitions at its top. -/
def body : Json → Json
  | .obj members => .obj (members.filter fun member => member.1 ∉ ["definitions", "$defs"])
  | document => document

theorem isLeftOut_eq (key : String) :
    Expansion.isLeftOut "" key = decide (key ∈ ["definitions", "$defs"]) := by
  rw [Expansion.isLeftOut, beq_self_eq_true, Bool.true_and]
  simp only [List.mem_cons, List.not_mem_nil, or_false, Bool.decide_or]
  rfl

theorem body_obj (members : Members) : body (.obj members) = .obj (withoutDefinitions members) := by
  simp only [body, withoutDefinitions, isLeftOut_eq, decide_not]

theorem Untouched.withoutDefinitions (h : Untouched members) :
    Untouched (withoutDefinitions members) := by
  have hget : ∀ key ∈ ["$ref", "allOf", "type", "required"],
      Table.get? (Schema.withoutDefinitions members) key = Table.get? members key := by
    intro key hkey
    refine get?_withoutDefinitions ?_
    rw [isLeftOut_eq, decide_eq_false_iff_not]
    revert key
    decide
  have htype : isTyped (.obj (Schema.withoutDefinitions members)) "array" =
      isTyped (.obj members) "array" := by
    simp only [isTyped, Json.get?, hget "type" (by decide)]
  refine ⟨?_, ?_, ?_⟩
  · rw [reference?, hget "$ref" (by decide)]
    exact h.noReference
  · rw [hget "allOf" (by decide)]
    exact h.noAllOf
  · rw [htype, hget "required" (by decide)]
    exact h.noRequired

theorem Untouched.finish (h : Untouched members) :
    Expansion.finish (.obj members) = .obj members := by
  have hcollapse : collapseAllOf (.obj members) = .obj members := by
    have hcollapsed := collapsed (.obj members)
    generalize collapseAllOf (.obj members) = w at hcollapsed
    cases hcollapsed with
    | kept => rfl
    | alone he hparts => exact absurd (Json.obj.inj he ▸ hparts) (h.noAllOf _)
    | beside he hparts => exact absurd (Json.obj.inj he ▸ hparts) (h.noAllOf _)
  rw [Expansion.finish, hcollapse]
  rcases moveRequired_cases (.obj members) with he | ⟨ms, names, key, items, he, hmoves⟩
  · exact he
  · obtain rfl := Json.obj.inj he
    exact absurd hmoves.required (h.noRequired hmoves.typed names)

theorem each_body {document : Json} (h : EachObject Untouched .schema document) :
    EachObject Untouched .schema (body document) := by
  cases document with
  | obj members =>
      obtain ⟨hself, hbelow⟩ := eachObject_schema.mp h
      rw [body_obj]
      refine eachObject_schema.mpr ⟨hself.withoutDefinitions, fun entry hm => ?_⟩
      exact hbelow entry (mem_withoutDefinitions hm)
  | null | bool _ | num _ | str _ | arr _ => exact h

end Schema

open Schema (Untouched body EachObject)

namespace Expansion

theorem tidyDocument_untouched {document : Json} (h : EachObject Untouched .schema document) :
    tidyDocument document = body document := by
  have htidy : tidy .schema (body document) = body document :=
    tidy_of_finished ((Schema.each_body h).imp fun _ => Untouched.finish)
  cases document with
  | obj members => rwa [Schema.body_obj] at htidy ⊢
  | null | bool _ | num _ | str _ | arr _ => exact htidy

end Expansion

namespace Resolved

variable {r : Resolved} {object : String × Members} {text : String}

/-! ## Recording -/

/-- Nothing stands at a text that is no pointer. -/
theorem segments?_normalize_eq_none (h : Pointer.isPointer text = false) :
    Pointer.segments? (Pointer.normalize text) = none := by
  rw [Pointer.segments?_normalize, ← Option.not_isSome_iff_eq_none, Pointer.segments?_isSome, h]
  exact Bool.false_ne_true

theorem noteArray_library (r : Resolved) (place : String) (members : Members) :
    (r.noteArray place members).library = r.library := by
  unfold noteArray
  split
  · split <;> rfl
  · rfl

/-- Where there is no reference, a `$ref` names no schema. -/
theorem note_library (h : Schema.reference? object.2 = none) :
    (r.note object).library = r.library := by
  rw [note, noteArray_library, noteReference]
  split
  · rfl
  · next text htext =>
      have hnone : r.schema.at? (Pointer.normalize text) = none := by
        rw [Schema.reference?, htext, Option.filter_eq_none_iff] at h
        rw [Json.at?, segments?_normalize_eq_none (Bool.eq_false_iff.mpr (h text rfl)),
          Option.bind_none]
      simp only [hnone]

theorem foldl_note_library {objects : List (String × Members)}
    (h : ∀ object ∈ objects, Schema.reference? object.2 = none) :
    (objects.foldl note r).library = r.library := by
  induction objects generalizing r with
  | nil => rfl
  | cons object rest ih =>
      rw [List.forall_mem_cons] at h
      rw [List.foldl_cons, ih h.2, note_library h.1]

theorem note_graph (r : Resolved) (object : String × Members) :
    (r.note object).graph = r.graph := by
  unfold note noteArray noteReference
  repeat' split
  all_goals rfl

theorem foldl_note_graph (objects : List (String × Members)) (r : Resolved) :
    (objects.foldl note r).graph = r.graph := by
  induction objects generalizing r with
  | nil => rfl
  | cons object rest ih => rw [List.foldl_cons, ih, note_graph]

/-- The text of a rule of the schema is no pointer. -/
theorem Noted.not_isPointer {schema : Json} {rule : String × String} (h : Noted schema rule)
    (hplain : ∀ object ∈ Schema.objects schema, Schema.reference? object.2 = none) :
    Pointer.isPointer rule.2 = false := by
  obtain ⟨object, hm, text, htext, rfl⟩ := h
  rw [Bool.eq_false_iff]
  intro hpointer
  have hsome := Schema.reference?_eq_some.mpr ⟨htext, Pointer.isPointer_of_normalize hpointer⟩
  rw [hplain object hm] at hsome
  cases hsome

/-- There is no rule of the data. -/
theorem NotedData.false {schema : Json} {rule : String × String} (h : NotedData schema rule)
    (hplain : ∀ object ∈ Schema.objects schema, Schema.reference? object.2 = none) : False := by
  obtain ⟨noted, hnoted, -, htarget⟩ := h
  obtain ⟨path, hpath, -⟩ := Option.bind_eq_some_iff.mp htarget
  have hpointer := Pointer.isPointer_iff.mpr ⟨path, hpath⟩
  exact Bool.false_ne_true ((hnoted.not_isPointer hplain).symm.trans hpointer)

/-! ## Documents -/

/-- **Plain schemas are left alone.**  Where no schema object has a reference, an `allOf` list, or
the type of an array and a list of required names, the resolved schema is the document without the
definitions at its top, member for member; there are no links and no schemas on record, the schema
table names no pointer, and the data table is empty. -/
theorem of?_untouched {document : Json}
    (h : ∀ object ∈ Schema.objects document, Untouched object.2) :
    ∃ r, of? document = some r ∧ r.schema = body document ∧ r.graph.links = [] ∧ r.library = [] ∧
      (∀ rule ∈ r.schemaFolds, Pointer.isPointer rule.2 = false) ∧ r.dataFolds = [] := by
  have heach : EachObject Untouched .schema document := (Schema.eachObject_iff "").mpr h
  have hlinked : Expansion.Unlinked .schema document := heach.imp fun _ => Untouched.noReference
  have hplain : ∀ object ∈ Schema.objects (body document), Schema.reference? object.2 = none :=
    fun object hm => ((Schema.eachObject_iff "").mp (Schema.each_body heach) object hm).noReference
  have hresolved := of?_unlinked hlinked
  rw [Expansion.tidyDocument_untouched heach] at hresolved
  obtain ⟨hrules, hdata⟩ := rules_noted hresolved
  rw [foldl_note_schema] at hrules hdata
  refine ⟨_, hresolved, foldl_note_schema _ _, ?_, foldl_note_library hplain, ?_, ?_⟩
  · rw [foldl_note_graph]
    exact links_plain hlinked
  · exact fun rule hrule => (hrules rule hrule).not_isPointer hplain
  · exact List.eq_nil_iff_forall_not_mem.mpr fun rule hrule => (hdata rule hrule).false hplain

/-- A list schema with properties that are named like keywords, a `$ref` that is a schema, one that
is a name, data that looks like a reference, and definitions inside and at the top. -/
def disguisedSchema : Json :=
  .obj [("definitions", .obj [("a", .obj [])]),
    ("type", .str "array"), ("$ref", .obj [("$ref", .str "name")]),
    ("properties", .obj [
      ("definitions", .obj [("required", .arr [.str "b"])]), ("allOf", .arr [.obj []]),
      ("$ref", .obj [("enum", .arr [.obj [("$ref", .str "#")]])])]),
    ("allOf", .obj [("definitions", .obj [])]), ("$defs", .obj []), ("title", .str "t")]

theorem of?_untouched_disguised :
    (∀ object ∈ Schema.objects disguisedSchema, Untouched object.2) ∧
      body disguisedSchema = .obj [("type", .str "array"), ("$ref", .obj [("$ref", .str "name")]),
        ("properties", .obj [
          ("definitions", .obj [("required", .arr [.str "b"])]), ("allOf", .arr [.obj []]),
          ("$ref", .obj [("enum", .arr [.obj [("$ref", .str "#")]])])]),
        ("allOf", .obj [("definitions", .obj [])]), ("title", .str "t")] ∧
      ∃ r, of? disguisedSchema = some r ∧ r.schema = body disguisedSchema ∧ r.graph.links = [] ∧
        r.library = [] ∧ (∀ rule ∈ r.schemaFolds, Pointer.isPointer rule.2 = false) ∧
        r.dataFolds = [] := by
  have huntouched : ∀ object ∈ Schema.objects disguisedSchema, Untouched object.2 := by
    intro object hm
    have hall : ∀ object ∈ Schema.objects disguisedSchema,
        Schema.reference? object.2 = none ∧
          ((Table.get? object.2 "allOf").bind Json.arr?).isSome = false ∧
          (Schema.isTyped (.obj object.2) "array" = true →
            ((Table.get? object.2 "required").bind Json.arr?).isSome = false) := by
      decide
    obtain ⟨href, hallOf, hrequired⟩ := hall object hm
    refine ⟨href, fun parts hparts => ?_, fun htyped names hnames => ?_⟩
    · rw [hparts] at hallOf
      cases hallOf
    · have hnone := hrequired htyped
      rw [hnames] at hnone
      cases hnone
  exact ⟨huntouched, rfl, of?_untouched huntouched⟩

end Resolved

end SchemaForm
