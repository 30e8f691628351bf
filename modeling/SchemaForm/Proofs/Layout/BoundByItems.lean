/-
Arrays that are bound by what is in them.

An array entry without a pointer and a key is bound to what stands before the last segment that
begins with a minus sign, in the first data pointer within it that has such a segment
(`boundTo?_of_items`).  The items of the array contain that pointer if the segment is the wildcard
itself; a property may be called `-x` as well, and then the array comes to be bound to something
that its items are not in (`not_boundTo?_covers`).
-/
import SchemaForm.Proofs.Layout.Stars

namespace SchemaForm

namespace Description

open Pointer

/-- The segment begins as the wildcard does. -/
def Dashed (segment : String) : Prop := segment.toList.head? = some '-'

instance (segment : String) : Decidable (Dashed segment) :=
  inferInstanceAs (Decidable (_ = _))

variable {segments : List String} {d : String}

/-! ## The last segment that begins with a minus sign -/

theorem head?_escapeChars (cs : List Char) :
    (escapeChars cs).head? = some '-' ↔ cs.head? = some '-' := by
  cases cs with
  | nil => rfl
  | cons c rest =>
      rw [escapeChars]
      split
      · next hc => simp [hc]
      · split
        · next hc => simp [hc]
        · rfl

theorem beforeLastItemFrom?_eq_none {cs : List Char} (h : '/' ∉ cs) :
    beforeLastItemFrom? cs = none := by
  induction cs with
  | nil => rfl
  | cons c rest ih =>
      simp only [List.mem_cons, not_or] at h
      rw [beforeLastItemFrom?, ih h.2]
      exact if_neg fun hc => h.1 hc.1.symm

/-- The last piece decides, or else the pieces before it. -/
theorem beforeLastItemFrom?_slash {piece : List Char} (h : '/' ∉ piece) (cs : List Char) :
    beforeLastItemFrom? (cs ++ '/' :: piece) =
      if piece.head? = some '-' then some cs else beforeLastItemFrom? cs := by
  induction cs with
  | nil =>
      simp only [List.nil_append, beforeLastItemFrom?, beforeLastItemFrom?_eq_none h, true_and]
  | cons c cs ih =>
      -- a slash at the end of `cs` has a slash behind it then, and no minus sign
      have hhead : (cs ++ '/' :: piece).head? = some '-' ↔ cs.head? = some '-' := by
        cases cs <;> simp
      simp only [List.cons_append, beforeLastItemFrom?, ih, hhead]
      by_cases hp : piece.head? = some '-'
      · simp only [if_pos hp]
      · simp only [if_neg hp]

theorem beforeLastItem?_concat (segments : List String) (s : String) :
    beforeLastItem? (ofSegments (segments ++ [s])) =
      if Dashed s then some (ofSegments segments) else beforeLastItem? (ofSegments segments) := by
  have hlast : (ofSegments (segments ++ [s])).toList =
      (ofSegments segments).toList ++ '/' :: escapeChars s.toList := by
    simp [toList_ofSegments]
  rw [beforeLastItem?, hlast, beforeLastItemFrom?_slash (slash_not_mem_escapeChars _)]
  by_cases hs : Dashed s
  · have hhead : (escapeChars s.toList).head? = some '-' := (head?_escapeChars _).mpr hs
    rw [if_pos hhead, if_pos hs, Option.map_some, String.ofList_toList]
  · have hhead : (escapeChars s.toList).head? ≠ some '-' := (head?_escapeChars _).not.mpr hs
    rw [if_neg hhead, if_neg hs, beforeLastItem?]

/-- A written pointer is cut before its last segment that begins with a minus sign. -/
theorem beforeLastItem?_ofSegments (h : beforeLastItem? (ofSegments segments) = some d) :
    ∃ a s b, segments = a ++ s :: b ∧ Dashed s ∧ (∀ t ∈ b, ¬Dashed t) ∧ d = ofSegments a := by
  induction segments using List.reverseRecOn with
  | nil => cases h
  | append_singleton segments s ih =>
      rw [beforeLastItem?_concat] at h
      split at h
      · next hs =>
          obtain rfl := Option.some.inj h
          exact ⟨segments, s, [], rfl, hs, fun _ ht => absurd ht List.not_mem_nil, rfl⟩
      · next hs =>
          obtain ⟨a, t, b, rfl, ht, hb, hd⟩ := ih h
          refine ⟨a, t, b ++ [s], ?_, ht, ?_, hd⟩
          · rw [List.append_assoc, List.cons_append]
          · rw [List.forall_mem_append, List.forall_mem_singleton]
            exact ⟨hb, hs⟩

/-! ## Containment -/

/-- The items of a list contain what begins like them where a segment ends. -/
theorem covers_anyItem_append (pointer rest : String) :
    covers (anyItem pointer) (anyItem pointer ++ rest) = true ↔
      rest = "" ∨ rest.toList.head? = some '/' := by
  have hbelow : unmarked (anyItem pointer ++ rest).toList =
      unmarked (anyItem pointer).toList ++ rest.toList := by
    have hmore : anyItem pointer ++ rest = pointer ++ "/" ++ (wildcard ++ rest) :=
      String.append_assoc
    rw [hmore, anyItem, unmarked_slash, unmarked_slash, String.toList_append, List.append_assoc]
    rfl
  have hne : unmarked (anyItem pointer).toList ≠ [] := by
    rw [anyItem, unmarked_slash]
    exact List.append_ne_nil_of_right_ne_nil _ (List.cons_ne_nil _ _)
  rw [covers_iff, hbelow]
  constructor
  · rintro ⟨more, hmore, h⟩
    obtain rfl := List.append_cancel_left hmore
    rcases h with h | h | h
    · exact .inl (String.toList_eq_nil_iff.mp h)
    · exact absurd h hne
    · exact .inr h
  · rintro (rfl | h)
    · exact ⟨[], rfl, .inl rfl⟩
    · exact ⟨rest.toList, rfl, .inr (.inr h)⟩

/-- The items of a list contain what is written below one of its segments if that is the
wildcard. -/
theorem covers_anyItem_ofSegments (a b : List String) (s : String) :
    covers (anyItem (ofSegments a)) (ofSegments (a ++ s :: b)) = true ↔ s = wildcard := by
  rw [anyItem_ofSegments, covers_ofSegments, List.prefix_append_right_inj, List.cons_prefix_cons]
  exact ⟨fun h => h.1.symm, fun h => ⟨h.symm, List.nil_prefix⟩⟩

/-- **An array bound by its items.**  An entry without a pointer and a key that what is in it binds
is an array, and is bound by the first data pointer in it that has a segment beginning with a minus
sign.  The items of the array contain that data pointer if and only if a segment ends behind the
minus sign, that is, for a pointer that is written from segments, if and only if the last segment
that begins with a minus sign is the wildcard; the array is bound to the segments before it. -/
theorem boundTo?_of_items {p : Parts} {children : List Node} (hdata : p.dataPointer = none)
    (hkey : p.key = none) (h : boundTo? p children = some d) :
    p.type.endsWith "array" = true ∧
      ∃ source rest, (Node.controlsAll children).findSome? itemSource? = some source ∧
        source = anyItem d ++ rest ∧
        (covers (anyItem d) source = true ↔ rest = "" ∨ rest.toList.head? = some '/') ∧
        ∀ segments, source = ofSegments segments →
          ∃ a s b, segments = a ++ s :: b ∧ Dashed s ∧ (∀ t ∈ b, ¬Dashed t) ∧
            d = ofSegments a ∧ (covers (anyItem d) source = true ↔ s = wildcard) := by
  rw [boundTo?, hdata, hkey, Option.none_or] at h
  dsimp only at h
  split at h
  · next harray =>
      obtain ⟨source, hsource, hbefore⟩ := Option.bind_eq_some_iff.mp h
      obtain ⟨rest, hrest⟩ := beforeLastItem?_split hbefore
      refine ⟨harray, source, rest, ?_, hrest, ?_, fun segments hsegments => ?_⟩
      · rw [← itemPointerAmong?_eq, hsource]
      · rw [hrest]
        exact covers_anyItem_append d rest
      · rw [hsegments] at hbefore
        obtain ⟨a, s, b, rfl, hs, hb, rfl⟩ := beforeLastItem?_ofSegments hbefore
        refine ⟨a, s, b, rfl, hs, hb, rfl, ?_⟩
        rw [hsegments]
        exact covers_anyItem_ofSegments a b s
  · cases h

/-- A list of cells in a list of rows is bound by the name of a cell. -/
theorem boundTo?_of_items_cells :
    let children := [Node.mk { dataPointer := some "/rows/-/cells/-/name" } []]
    boundTo? { type := "array" } children = some "/rows/-/cells" ∧
      ∃ source rest, (Node.controlsAll children).findSome? itemSource? = some source ∧
        source = anyItem "/rows/-/cells" ++ rest ∧
        (covers (anyItem "/rows/-/cells") source = true ↔
          rest = "" ∨ rest.toList.head? = some '/') ∧
        ∀ segments, source = ofSegments segments →
          ∃ a s b, segments = a ++ s :: b ∧ Dashed s ∧ (∀ t ∈ b, ¬Dashed t) ∧
            "/rows/-/cells" = ofSegments a ∧
            (covers (anyItem "/rows/-/cells") source = true ↔ s = wildcard) := by
  intro children
  have hbound : boundTo? { type := "array" } children = some "/rows/-/cells" := by decide +kernel
  exact ⟨hbound, (boundTo?_of_items rfl rfl hbound).2⟩

/-- The property `-x` of an item binds the list to an item of itself. -/
theorem not_boundTo?_covers :
    ¬∀ (p : Parts) (children : List Node) (d source : String),
      p.type.endsWith "array" = true → p.dataPointer = none → p.key = none →
      boundTo? p children = some d →
      (Node.controlsAll children).findSome? itemSource? = some source →
      covers (anyItem d) source = true := by
  intro h
  have hcovers := h { type := "array" } [Node.mk { dataPointer := some "/list/-/-x" } []] "/list/-"
    "/list/-/-x" (by decide +kernel) rfl rfl (by decide +kernel) (by decide +kernel)
  exact absurd hcovers (by decide)

end Description

end SchemaForm
