/-
Plain names.

A name of letters is written as it is in pointers and in paths: as a path it stands for the
place of the property of that name, and with empty brackets for the items there.
-/
import SchemaForm.Layout.Entry
import SchemaForm.Proofs.Pointer.Paths
import SchemaForm.Proofs.Schema.Fields

namespace SchemaForm

namespace Pointer

/-- A name of letters only. -/
def IsPlain (name : String) : Prop := name ≠ "" ∧ ∀ c ∈ name.toList, c.isAlpha = true

instance (name : String) : Decidable (IsPlain name) :=
  decidable_of_iff (name ≠ "" ∧ name.toList.all Char.isAlpha = true)
    (and_congr_right' List.all_eq_true)

variable {name : String}

/-- A letter is none of the characters that are read as something else. -/
theorem ne_of_isAlpha {c d : Char} (hc : c.isAlpha = true) (hd : d.isAlpha = false) : c ≠ d := by
  rintro rfl
  exact Bool.false_ne_true (hd.symm.trans hc)

theorem IsPlain.cons (h : IsPlain name) :
    ∃ c rest, name.toList = c :: rest ∧ c.isAlpha = true := by
  cases hchars : name.toList with
  | nil => exact absurd (String.toList_eq_nil_iff.mp hchars) h.1
  | cons c rest => exact ⟨c, rest, rfl, h.2 c (by rw [hchars]; exact List.mem_cons_self)⟩

theorem not_isDigit_of_isAlpha {c : Char} (hc : c.isAlpha = true) : c.isDigit = false := by
  have hletter : 'A'.toNat ≤ c.toNat := by
    rcases Bool.or_eq_true_iff.mp hc with hupper | hlower
    · exact UInt32.le_iff_toNat_le.mp (of_decide_eq_true hupper).1
    · have hle := UInt32.le_iff_toNat_le.mp (of_decide_eq_true (Bool.and_eq_true_iff.mp hlower).1)
      exact Nat.le_trans (by decide) hle
  rw [← Bool.not_eq_true, Char.isDigit_iff_toNat]
  rintro ⟨-, hdigit⟩
  exact absurd (Nat.le_trans hletter hdigit) (by decide)

theorem IsPlain.index? (h : IsPlain name) : Pointer.index? name = none := by
  obtain ⟨c, rest, hchars, hc⟩ := h.cons
  have hplus : c ≠ '+' := ne_of_isAlpha hc (by decide)
  have hnumeral : numeral? (c :: rest) = none := by
    rw [numeral?, if_neg]
    rintro ⟨-, hall⟩
    rw [List.all_cons, not_isDigit_of_isAlpha hc] at hall
    cases hall
  unfold Pointer.index?
  rw [hchars]
  split
  · next he => exact absurd (List.cons.inj he).1 hplus
  · dsimp only
    rw [hnumeral]
    rfl

theorem IsPlain.isPosition (h : IsPlain name) : Schema.isPosition name = false := by
  obtain ⟨c, rest, hchars, hc⟩ := h.cons
  have hne : name ≠ wildcard := by
    rintro rfl
    obtain ⟨rfl, -⟩ := List.cons.inj hchars
    exact absurd hc (by decide)
  rw [Schema.isPosition, h.index?, beq_false_of_ne hne]
  rfl

theorem child_root (name : String) : child "" name = ofSegments [name] := child_ofSegments [] name

theorem child_ne_star (name : String) : child "" name ≠ "*" := by
  intro he
  have hlist := congrArg String.toList he
  rw [child_root, toList_ofSegments] at hlist
  cases hlist

theorem anyItem_child_root (name : String) :
    anyItem (child "" name) = ofSegments [name, wildcard] := by
  rw [child_root]
  exact anyItem_ofSegments [name]

theorem child_properties (name : String) :
    child "/properties" name = ofSegments ["properties", name] :=
  child_ofSegments ["properties"] name

/-- A plain name and what is below it stay as they are in generic form. -/
theorem IsPlain.toGeneric (h : IsPlain name) (arrays : ArrayTable) :
    toGeneric arrays (child "" name) = child "" name := by
  rw [child_root, toGeneric_ofSegments, genericSegments_of_keys]
  · rfl
  · rintro key hkey
    rw [List.mem_singleton.mp hkey, h.index?]

theorem IsPlain.toGeneric_anyItem (h : IsPlain name) (arrays : ArrayTable) :
    Pointer.toGeneric arrays (anyItem (child "" name)) = anyItem (child "" name) := by
  rw [anyItem_child_root, toGeneric_ofSegments, genericSegments_of_keys]
  · rfl
  · intro key hkey
    rcases List.mem_cons.mp hkey with rfl | hkey
    · exact h.index?
    · rw [List.mem_singleton.mp hkey]
      decide

/-- The property that a pointer below the root is the generic one of. -/
theorem IsPlain.eq_of_generic (h : IsPlain name) {arrays : ArrayTable} {other : String}
    (he : Pointer.toGeneric arrays (child "" other) = child "" name) : other = name := by
  rw [child_root, child_root, toGeneric_ofSegments] at he
  have hone := ofSegments_injective he
  simp only [genericSegments, List.nil_append, List.cons.injEq, and_true] at hone
  rcases genericSegment_cases arrays [] other with hwild | hsame
  · rw [hwild] at hone
    have hposition := h.isPosition
    rw [← hone] at hposition
    exact absurd hposition (by decide)
  · exact hsame.symm.trans hone

/-- A property of a plain name is found under its name. -/
theorem IsPlain.located (h : IsPlain name) {schema property : Json} {properties : Members}
    (hproperties : (schema.get? "properties").bind Json.obj? = some properties)
    (hget : Table.get? properties name = some property) :
    Schema.locateFrom? schema [name] = some (.declared ["properties", name] property) := by
  have hroot : Schema.locateFrom? schema [] = some (.declared [] schema) := rfl
  have hstep := Schema.stepInto?_property hproperties hget fun hread => by
    rw [h.isPosition] at hread
    exact Bool.false_ne_true hread.2
  exact Schema.locateFrom?_concat hroot hstep

theorem IsPlain.pointerOfData? (h : IsPlain name) {schema property : Json} {properties : Members}
    (hproperties : (schema.get? "properties").bind Json.obj? = some properties)
    (hget : Table.get? properties name = some property) :
    Schema.pointerOfData? schema (child "" name) = some (child "/properties" name) := by
  rw [Schema.pointerOfData?, Schema.locate?, child_root, segments?_ofSegments, Option.bind_some,
    h.located hproperties hget]
  exact congrArg some (child_properties name).symm

/-- A plain name can begin a path. -/
theorem IsPlain.wellFormed (h : IsPlain name) {parts : List PathPart}
    (hparts : ∀ part ∈ parts, part.WellFormed) : DottedPath.WellFormed ⟨name, parts⟩ := by
  have hnot : ∀ {d : Char}, d.isAlpha = false → d ∉ name.toList := by
    intro d hd hmem
    exact ne_of_isAlpha (h.2 d hmem) hd rfl
  refine ⟨⟨h.1, hnot (by decide), hnot (by decide)⟩, fun he => ?_, fun he => ?_, hparts⟩
  · exact hnot (by decide) (List.mem_of_head? he)
  · exact hnot (by decide) (List.mem_of_head? he)

/-- A text that begins with a letter is no pointer. -/
theorem IsPlain.isPointer (h : IsPlain name) (more : String) :
    Pointer.isPointer (name ++ more) = false := by
  obtain ⟨c, rest, hchars, hc⟩ := h.cons
  have hhead : (name ++ more).toList.head? = some c := by
    rw [String.toList_append, hchars]
    rfl
  have hne : name ++ more ≠ "" := by
    intro he
    rw [he] at hhead
    cases hhead
  have hother : ∀ {d : Char}, d.isAlpha = false → (name ++ more).toList.head? ≠ some d := by
    intro d hd he
    exact ne_of_isAlpha hc hd (Option.some.inj (hhead.symm.trans he))
  rw [← segments?_isSome, segments?_eq_none hne (hother (by decide)) (hother (by decide))]
  rfl

/-- The pointer that a plain name stands for as a path. -/
theorem IsPlain.genericOfPath (h : IsPlain name) : genericOfPath name = child "" name := by
  have hread := DottedPath.ofPath_text (h.wellFormed (List.forall_mem_nil PathPart.WellFormed))
  have htext : DottedPath.text ⟨name, []⟩ = name := by
    rw [DottedPath.text, List.flatMap_nil, List.append_nil, String.ofList_toList]
  rw [htext] at hread
  rw [Pointer.genericOfPath, hread, DottedPath.segments, List.map_nil, ofSegmentsOr,
    List.map_singleton, if_neg h.1]
  exact (child_root name).symm

/-- With empty brackets it stands for the items. -/
theorem IsPlain.genericOfPath_items (h : IsPlain name) :
    Pointer.genericOfPath (name ++ "[]") = anyItem (child "" name) := by
  have hbrackets : ∀ part ∈ [PathPart.position ""], part.WellFormed :=
    List.forall_mem_singleton.mpr (by decide)
  have hread := DottedPath.ofPath_text (h.wellFormed hbrackets)
  have htext : DottedPath.text ⟨name, [.position ""]⟩ = name ++ "[]" := by
    rw [← String.toList_inj, DottedPath.text, String.toList_ofList, String.toList_append]
    rfl
  rw [htext] at hread
  rw [Pointer.genericOfPath, hread, DottedPath.segments, ofSegmentsOr, List.map_singleton,
    List.map_cons, if_neg h.1]
  exact (anyItem_child_root name).symm

end Pointer

end SchemaForm
