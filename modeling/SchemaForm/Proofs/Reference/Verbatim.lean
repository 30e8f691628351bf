/-
Schemas that are resolved as they are.

Where no schema object has a reference, an `allOf` list or the type of an array (`Verbatim`),
nothing is merged, moved or recorded: the resolved schema is the document without its
definitions, and all tables are empty (`of?_verbatim`).  Then a pointer is its own generic form
and its own shallowest one (`shorten_ofSegments_nil`).
-/
import SchemaForm.Proofs.Reference.Plain

namespace SchemaForm

/-! ## Pointers where there are no tables -/

namespace Pointer

theorem genericSegments_nil (above segments : List String) :
    genericSegments [] above segments = above ++ segments := by
  induction segments generalizing above with
  | nil => exact (List.append_nil above).symm
  | cons key rest ih =>
      have hkey : genericSegment [] above key = key := by
        unfold genericSegment
        split <;> rfl
      rw [genericSegments, hkey, ih, List.append_assoc]
      rfl

theorem toGeneric_ofSegments_nil (segments : List String) :
    toGeneric [] (ofSegments segments) = ofSegments segments := by
  rw [toGeneric_ofSegments, genericSegments_nil, List.nil_append]

theorem shorten_ofSegments_nil (segments : List String) :
    shorten [] [] (ofSegments segments) = ofSegments segments := by
  rw [shorten, toGeneric_ofSegments_nil, foldAll, if_neg]
  exact Nat.lt_irrefl _

end Pointer

/-! ## Verbatim schema objects -/

namespace Schema

/-- A schema object in which nothing is merged or moved, and of which nothing is recorded. -/
structure Verbatim (members : Members) : Prop where
  noReference : "$ref" ∉ Table.names members
  noAllOf : "allOf" ∉ Table.names members
  noArray : isTyped (.obj members) "array" = false

variable {members : Members} {role : Role} {v : Json}

theorem Verbatim.finish (h : Verbatim members) :
    Expansion.finish (.obj members) = .obj members := by
  have hnone : (Json.obj members).get? "allOf" = none := Table.get?_eq_none_iff.mpr h.noAllOf
  have hcollapse : collapseAllOf (.obj members) = .obj members := by
    simp only [collapseAllOf, hnone]
  rw [Expansion.finish, hcollapse]
  simp only [moveRequired, h.noArray]
  split <;> rfl

theorem Verbatim.note (h : Verbatim members) (r : Resolved) (place : String) :
    r.note (place, members) = r := by
  have href : Table.get? members "$ref" = none := Table.get?_eq_none_iff.mpr h.noReference
  have hreference : r.noteReference place members = r := by
    simp only [Resolved.noteReference, href, Option.bind_none]
  rw [Resolved.note, hreference, Resolved.noteArray, h.noArray, Bool.false_and, if_neg]
  exact Bool.false_ne_true

/-- The members of a document without its definitions. -/
def withoutDefinitions (members : Members) : Members :=
  members.filter fun member => !Expansion.isLeftOut "" member.1

theorem get?_withoutDefinitions {key : String} (h : Expansion.isLeftOut "" key = false) :
    Table.get? (withoutDefinitions members) key = Table.get? members key := by
  induction members with
  | nil => rfl
  | cons entry rest ih =>
      obtain ⟨name, value⟩ := entry
      rw [withoutDefinitions, List.filter_cons]
      split
      · rw [Table.get?_cons, Table.get?_cons]
        exact ite_congr rfl (fun _ => rfl) fun _ => ih
      · next hout =>
          have hne : name ≠ key := by
            rintro rfl
            exact hout (by rw [h]; rfl)
          rw [Table.get?_cons, if_neg hne]
          exact ih

theorem typeName?_withoutDefinitions (members : Members) :
    typeName? (.obj (withoutDefinitions members)) = typeName? (.obj members) := by
  have hsame : ∀ key ∈ ["type", "properties", "items"],
      (Json.obj (withoutDefinitions members)).get? key = (Json.obj members).get? key := by
    intro key hkey
    refine get?_withoutDefinitions ?_
    simp only [List.mem_cons, List.not_mem_nil, or_false] at hkey
    rcases hkey with rfl | rfl | rfl <;> decide
  simp only [typeName?, chooseType, Json.has, hsame "type" (by decide),
    hsame "properties" (by decide), hsame "items" (by decide)]

theorem mem_withoutDefinitions {entry : String × Json} (h : entry ∈ withoutDefinitions members) :
    entry ∈ members :=
  (List.mem_filter.mp h).1

theorem Verbatim.withoutDefinitions (h : Verbatim members) :
    Verbatim (withoutDefinitions members) := by
  have hnames : ∀ key, key ∉ Table.names members →
      key ∉ Table.names (Schema.withoutDefinitions members) := by
    intro key hkey hm
    obtain ⟨value, hm⟩ := Table.mem_names.mp hm
    exact hkey (Table.mem_names.mpr ⟨value, mem_withoutDefinitions hm⟩)
  refine ⟨hnames _ h.noReference, hnames _ h.noAllOf, ?_⟩
  have htype : (Json.obj (Schema.withoutDefinitions members)).get? "type" =
      (Json.obj members).get? "type" := get?_withoutDefinitions (by decide)
  rw [isTyped, htype]
  exact h.noArray

end Schema

/-! ## The walk -/

namespace Expansion

open Schema (Role Verbatim)

variable {members : Members} {role : Role} {v : Json}

/-- Nothing is to be tidied. -/
theorem tidy_verbatim (h : Schema.EachObject Verbatim role v) : tidy role v = v :=
  tidy_of_finished (h.imp fun _ => Verbatim.finish)

theorem each_withoutDefinitions (h : Schema.EachObject Verbatim .schema (.obj members)) :
    Schema.EachObject Verbatim .schema (.obj (Schema.withoutDefinitions members)) := by
  obtain ⟨hself, hbelow⟩ := Schema.eachObject_schema.mp h
  refine Schema.eachObject_schema.mpr ⟨hself.withoutDefinitions, fun entry hm => ?_⟩
  exact hbelow entry (Schema.mem_withoutDefinitions hm)

theorem tidyDocument_verbatim (h : Schema.EachObject Verbatim .schema (.obj members)) :
    tidyDocument (.obj members) = .obj (Schema.withoutDefinitions members) :=
  tidy_verbatim (each_withoutDefinitions h)

end Expansion

namespace Resolved

open Schema (Verbatim withoutDefinitions)

/-- **Verbatim schemas are resolved as they are.** -/
theorem of?_verbatim {members : Members}
    (h : Schema.EachObject Verbatim .schema (.obj members)) :
    of? (.obj members) =
      some ⟨.obj (withoutDefinitions members), [], [], [], [], Graph.of (.obj members)⟩ := by
  have hlinked : Expansion.Unlinked .schema (.obj members) :=
    h.imp fun _ hmembers => Expansion.reference?_eq_none hmembers.noReference
  have hobjects := (Schema.eachObject_iff "").mp (Expansion.each_withoutDefinitions h)
  have hnotes : ∀ (objects : List (String × Members)) (r : Resolved),
      (∀ object ∈ objects, Verbatim object.2) → objects.foldl note r = r := by
    intro objects r hall
    induction objects with
    | nil => rfl
    | cons object rest ih =>
        obtain ⟨hobject, hrest⟩ := List.forall_mem_cons.mp hall
        rw [List.foldl_cons, hobject.note, ih hrest]
  rw [of?_unlinked hlinked, Expansion.tidyDocument_verbatim h]
  exact congrArg some (hnotes _ _ hobjects)

end Resolved

end SchemaForm
