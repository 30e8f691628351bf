/-
The order of pointers.

Between written pointers `covers` is the prefix order of segments, so that canonical pointers are
partially ordered by it; and what a pointer has behind one that contains it, in characters as in
bytes, is the pointer of the segments that are left (`covers_prefixOrder`).
-/
import Mathlib.Order.Defs.Unbundled
import SchemaForm.Proofs.Pointer.Segments

namespace SchemaForm

namespace Pointer

variable {p q : String}

/-- A pointer in its one spelling. -/
def Canonical (p : String) : Prop := isPointer p = true ∧ normalize p = p

theorem canonical_iff : Canonical p ↔ Written p := by
  constructor
  · rintro ⟨hpointer, hnormal⟩
    rw [← segments?_isSome, Option.isSome_iff_exists] at hpointer
    obtain ⟨segments, hsegments⟩ := hpointer
    rw [normalize, hsegments] at hnormal
    exact ⟨segments, hnormal.symm⟩
  · rintro ⟨segments, rfl⟩
    refine ⟨?_, ?_⟩
    · rw [← segments?_isSome, segments?_ofSegments]
      rfl
    · rw [normalize, segments?_ofSegments]

/-- Pointers that contain each other are the same text, in their one spelling. -/
theorem covers_antisymm (hp : Written p) (hq : Written q) (hpq : covers p q = true)
    (hqp : covers q p = true) : p = q := by
  obtain ⟨a, rfl⟩ := hp
  obtain ⟨b, rfl⟩ := hq
  rw [covers_ofSegments] at hpq hqp
  rw [hpq.eq_of_length_le hqp.length_le]

theorem canonical_isPartialOrder :
    IsPartialOrder {p : String // Canonical p} fun p q => covers p.1 q.1 = true where
  refl p := covers_refl p.1
  trans _ _ _ := covers_trans
  antisymm p q hpq hqp :=
    Subtype.ext (covers_antisymm (canonical_iff.mp p.2) (canonical_iff.mp q.2) hpq hqp)

/-- The bytes behind the beginning of a text are those of the rest. -/
theorem bytes_append (a b : String) :
    (a ++ b).toByteArray.extract a.utf8ByteSize (a ++ b).utf8ByteSize = b.toByteArray := by
  rw [String.toByteArray_append]
  refine ByteArray.extract_append_eq_right String.size_toByteArray.symm ?_
  rw [String.utf8ByteSize_append, String.size_toByteArray, String.size_toByteArray]

/-- **Containment is the prefix order.**  A written pointer contains another one if and only if its
segments are the first ones of the other; that is a partial order of the canonical pointers; and
what the one contained has behind as many characters, or as many bytes, as the other has is the
pointer of the segments that are left. -/
theorem covers_prefixOrder :
    (∀ a b : List String, covers (ofSegments a) (ofSegments b) = true ↔ a <+: b) ∧
    (IsPartialOrder {p : String // Canonical p} fun p q => covers p.1 q.1 = true) ∧
    ∀ a b : List String, covers (ofSegments a) (ofSegments b) = true →
      after (ofSegments a) (ofSegments b) = ofSegments (b.drop a.length) ∧
      (ofSegments b).toByteArray.extract (ofSegments a).utf8ByteSize (ofSegments b).utf8ByteSize =
        (ofSegments (b.drop a.length)).toByteArray := by
  refine ⟨fun _ _ => covers_ofSegments, canonical_isPartialOrder, fun a b h => ?_⟩
  obtain ⟨rest, rfl⟩ := covers_ofSegments.mp h
  rw [List.drop_left, ofSegments_append a rest]
  exact ⟨ofSegments_append a rest ▸ after_ofSegments a rest, bytes_append _ _⟩

/-- Characters of more than one byte, an empty segment and a slash in a segment. -/
theorem covers_prefixOrder_names :
    covers (ofSegments ["é", ""]) (ofSegments ["é", "", "a/b"]) = true ∧
      after (ofSegments ["é", ""]) (ofSegments ["é", "", "a/b"]) = "/a~1b" ∧
      (ofSegments ["é", "", "a/b"]).toByteArray.extract (ofSegments ["é", ""]).utf8ByteSize
        (ofSegments ["é", "", "a/b"]).utf8ByteSize = "/a~1b".toByteArray := by
  obtain ⟨hcovers, -, hafter⟩ := covers_prefixOrder
  have habove : covers (ofSegments ["é", ""]) (ofSegments ["é", "", "a/b"]) = true :=
    (hcovers _ _).mpr (by decide)
  obtain ⟨hchars, hbytes⟩ := hafter _ _ habove
  exact ⟨habove, hchars, hbytes⟩

/-- A name that another one begins with is no place above it, and an empty name is one below. -/
example : covers "/é" "/éa" = false ∧ covers "/é" "/é/" = true ∧ after "/é" "/é/" = "/" := by
  decide

end Pointer

end SchemaForm
