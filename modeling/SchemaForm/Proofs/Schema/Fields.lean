/-
The fields of a schema.

`Field root path place s` says that the schema `s`, at the end of the path from `root`,
describes the data at the place: one step for each property, each fixed position and each
list of items.  Looking a field up by its place leads back to it,

    locateFrom? root place = some (.declared path s)

unless a key on the way is read as something else (`Misread`): the name of a property as
the position of an item, or a position that is no word as no position at all.
-/
import SchemaForm.Proofs.Json.Places
import SchemaForm.Schema.Lookup

namespace SchemaForm

namespace Pointer

/-- The numeral of a position is read as that position, if it is a word. -/
theorem index?_repr (i : Nat) :
    index? (Nat.repr i) = (some i).filter (· < Number.wordLimit) := by
  have hplus : ∀ rest, (Nat.repr i).toList ≠ '+' :: rest := by
    intro rest h
    have hmem : '+' ∈ Nat.toDigits 10 i := by
      rw [← Nat.toList_repr, h]
      exact List.mem_cons_self
    exact absurd (Nat.isDigit_of_mem_toDigits (by decide) (by decide) hmem) (by decide)
  unfold index?
  split
  · next rest h => exact absurd h (hplus rest)
  · rw [Nat.toList_repr]
    exact congrArg (Option.filter (· < Number.wordLimit)) (numeral?_toDigits i)

theorem ofSegments_properties (path : List String) :
    ofSegments path ++ "/properties" = ofSegments (path ++ ["properties"]) := by
  have hkeyword : ofSegments ["properties"] = "/properties" := by decide
  rw [ofSegments_append, hkeyword]

theorem ofSegments_items (path : List String) :
    ofSegments path ++ "/items" = ofSegments (path ++ ["items"]) := by
  have hkeyword : ofSegments ["items"] = "/items" := by decide
  rw [ofSegments_append, hkeyword]

end Pointer

namespace Schema

variable {root s t : Json} {path place step : List String} {key : String}

/-- The schema at the end of the path describes the data at the place. -/
inductive Field (root : Json) : List String → List String → Json → Prop
  | root : Field root [] [] root
  | property {path place : List String} {s t : Json} {properties : Members} {name : String} :
      Field root path place s → (s.get? "properties").bind Json.obj? = some properties →
      Table.get? properties name = some t →
      Field root (path ++ ["properties", name]) (place ++ [name]) t
  | position {path place : List String} {s t : Json} {tuple : List Json} {index : Nat} :
      Field root path place s → (s.get? "items").bind Json.arr? = some tuple →
      tuple[index]? = some t →
      Field root (path ++ ["items", Nat.repr index]) (place ++ [Nat.repr index]) t
  | items {path place : List String} {s : Json} {members : Members} :
      Field root path place s → s.get? "items" = some (.obj members) →
      Field root (path ++ ["items"]) (place ++ [Pointer.wildcard]) (.obj members)
  | additional {path place : List String} {s : Json} {tuple : List Json} {members : Members} :
      Field root path place s → s.get? "items" = some (.arr tuple) →
      s.get? "additionalItems" = some (.obj members) →
      Field root (path ++ ["additionalItems"]) (place ++ [Pointer.wildcard]) (.obj members)

/-- A key that may stand for the position of an item. -/
def isPosition (key : String) : Bool := (Pointer.index? key).isSome || key == Pointer.wildcard

/-- A step of the path that is read as something else in the data: a property whose name
is read as a position, or a position that is read as no position. -/
def Misread (root : Json) (path : List String) : Prop :=
  ∃ above key below holder, root.follow? above = some holder ∧
    (path = above ++ "properties" :: key :: below ∧
        (isTyped holder "array" || holder.has "items") = true ∧ isPosition key = true ∨
      path = above ++ "items" :: key :: below ∧
        (∃ tuple, holder.get? "items" = some (.arr tuple)) ∧ Pointer.index? key = none)

theorem Misread.append (h : Misread root path) (more : List String) :
    Misread root (path ++ more) := by
  obtain ⟨above, key, below, holder, hholder, hstep⟩ := h
  refine ⟨above, key, below ++ more, holder, hholder, ?_⟩
  rcases hstep with ⟨rfl, hread⟩ | ⟨rfl, hread⟩
  · exact .inl ⟨by rw [List.append_assoc, List.cons_append, List.cons_append], hread⟩
  · exact .inr ⟨by rw [List.append_assoc, List.cons_append, List.cons_append], hread⟩

/-! ## Fields are there -/

theorem step?_of_get? {v : Json} (h : s.get? key = some v) : s.step? key = some v := by
  cases s with
  | obj members => exact h
  | _ => cases h

theorem follow?_cons {v : Json} (h : s.step? key = some v) (rest : List String) :
    s.follow? (key :: rest) = v.follow? rest := by
  rw [Json.follow?, h, Option.bind_some]

theorem follow?_concat (h : root.follow? path = some s) (hs : s.follow? step = some t) :
    root.follow? (path ++ step) = some t := by
  rw [Json.follow?_append, h, Option.bind_some, hs]

/-- The path of a field leads to its schema. -/
theorem Field.follow (h : Field root path place s) : root.follow? path = some s := by
  induction h with
  | root => rfl
  | @property path place s t properties name _ hproperties ht ih =>
      obtain ⟨found, hfound, hobj⟩ := Option.bind_eq_some_iff.mp hproperties
      refine follow?_concat ih ?_
      cases found with
      | obj members =>
          obtain rfl := Option.some.inj hobj
          have hstep : (Json.obj members).step? name = some t := ht
          rw [follow?_cons (step?_of_get? hfound), follow?_cons hstep]
          rfl
      | _ => cases hobj
  | @position path place s t tuple index _ htuple ht ih =>
      obtain ⟨found, hfound, harr⟩ := Option.bind_eq_some_iff.mp htuple
      refine follow?_concat ih ?_
      cases found with
      | arr items =>
          obtain rfl := Option.some.inj harr
          have hstep : (Json.arr items).step? (Nat.repr index) = some t := by
            rw [Json.step?, Pointer.position?_repr]
            exact ht
          rw [follow?_cons (step?_of_get? hfound), follow?_cons hstep]
          rfl
      | _ => cases harr
  | @items path place s members _ hitems ih =>
      refine follow?_concat ih ?_
      rw [follow?_cons (step?_of_get? hitems)]
      rfl
  | @additional path place s tuple members _ _ hadditional ih =>
      refine follow?_concat ih ?_
      rw [follow?_cons (step?_of_get? hadditional)]
      rfl

/-! ## Fields at the top -/

/-- Only the schema itself is at its own place. -/
theorem Field.place_of_nil (h : Field root [] place s) : place = [] := by
  generalize hpath : [] = path at h
  cases h with
  | root => rfl
  | property | position | items | additional =>
      exact absurd (congrArg List.length hpath) (by simp)

/-- A path with the name of a property at its end leads to what describes the property. -/
theorem Field.of_property (h : Field root (path ++ ["properties", key]) place s)
    (hitems : key ≠ "items") (hadditional : key ≠ "additionalItems") :
    ∃ above t, place = above ++ [key] ∧ Field root path above t := by
  generalize hpath : path ++ ["properties", key] = whole at h
  cases h with
  | root => exact absurd (congrArg List.length hpath) (by simp)
  | @property path' above t _ _ name hs =>
      obtain ⟨rfl, hkeys⟩ := List.append_inj' hpath rfl
      obtain rfl : key = name := by simpa using hkeys
      exact ⟨above, t, rfl, hs⟩
  | position =>
      obtain ⟨-, hkeys⟩ := List.append_inj' hpath rfl
      exact absurd (List.head_eq_of_cons_eq hkeys) (by decide)
  | items =>
      have hlast := congrArg List.getLast? hpath
      exact absurd hlast (by simpa using hitems)
  | additional =>
      have hlast := congrArg List.getLast? hpath
      exact absurd hlast (by simpa using hadditional)

/-- A property of the schema itself is misread only if its name is read as a position. -/
theorem not_misread_property (hkey : isPosition key = false) :
    ¬Misread root ["properties", key] := by
  rintro ⟨above, name, below, holder, -, hstep⟩
  cases above with
  | nil =>
      rcases hstep with ⟨hpath, -, hposition⟩ | ⟨hpath, -, -⟩
      · obtain ⟨rfl, -⟩ : key = name ∧ below = [] := by simpa using hpath
        exact absurd (hkey.symm.trans hposition) (by decide)
      · exact absurd (List.head_eq_of_cons_eq hpath) (by decide)
  | cons first above =>
      rcases hstep with ⟨hpath, -⟩ | ⟨hpath, -⟩ <;>
        exact absurd (congrArg List.length hpath) (by simp; omega)

/-! ## Looking fields up -/

/-- One step further down, from where a place is declared. -/
theorem locateFrom?_concat (h : locateFrom? root place = some (.declared path s))
    (hs : stepInto? s key = some (.declared step t)) :
    locateFrom? root (place ++ [key]) = some (.declared (path ++ step) t) := by
  induction place generalizing root path with
  | nil =>
      cases h
      simp only [List.nil_append, locateFrom?, hs]
      simp [Found.under]
  | cons first rest ih =>
      simp only [List.cons_append, locateFrom?] at h ⊢
      cases hfirst : stepInto? root first with
      | none =>
          rw [hfirst] at h
          cases h
      | some found =>
          rw [hfirst] at h
          cases found with
          | free above => cases h
          | declared above next =>
              obtain ⟨inner, hinner, he⟩ := Option.map_eq_some_iff.mp h
              cases inner with
              | free below => cases he
              | declared below s' =>
                  simp only [Found.under, Found.declared.injEq] at he
                  obtain ⟨rfl, rfl⟩ := he
                  simp only [ih hinner, Option.map_some, Found.under, List.append_assoc]

/-- A key that is read as a position steps into the items of what looks like a list. -/
theorem stepInto?_of_position (hlist : (isTyped s "array" || s.has "items") = true)
    (hposition : isPosition key = true) : stepInto? s key = itemAt? s key := by
  unfold isPosition at hposition
  simp only [stepInto?, hlist, hposition, Bool.and_self, if_true]

theorem stepInto?_of_not_position
    (hread : ¬((isTyped s "array" || s.has "items") = true ∧ isPosition key = true)) :
    stepInto? s key =
      if isTyped s "object" || s.has "properties" then propertyAt? s key else none := by
  have hitem : ((isTyped s "array" || s.has "items") &&
      ((Pointer.index? key).isSome || key == Pointer.wildcard)) = false := by
    rw [← Bool.not_eq_true, Bool.and_eq_true]
    exact hread
  simp only [stepInto?, hitem, Bool.false_eq_true, if_false]

theorem stepInto?_property {properties : Members}
    (hproperties : (s.get? "properties").bind Json.obj? = some properties)
    (ht : Table.get? properties key = some t)
    (hread : ¬((isTyped s "array" || s.has "items") = true ∧ isPosition key = true)) :
    stepInto? s key = some (.declared ["properties", key] t) := by
  obtain ⟨found, hfound, hobj⟩ := Option.bind_eq_some_iff.mp hproperties
  have hget : found.get? key = some t := by
    cases found with
    | obj members =>
        obtain rfl := Option.some.inj hobj
        exact ht
    | _ => cases hobj
  have hobject : (isTyped s "object" || s.has "properties") = true := by
    rw [Json.has, hfound]
    exact Bool.or_true _
  rw [stepInto?_of_not_position hread, if_pos hobject]
  simp only [propertyAt?, hfound, Option.bind_some, hget]

theorem stepInto?_item {items : Json} (hitems : s.get? "items" = some items)
    (hposition : isPosition key = true) : stepInto? s key = itemAt? s key := by
  refine stepInto?_of_position ?_ hposition
  rw [Json.has, hitems]
  exact Bool.or_true _

theorem stepInto?_position {tuple : List Json} {index : Nat}
    (htuple : s.get? "items" = some (.arr tuple)) (ht : tuple[index]? = some t)
    (hread : Pointer.index? (Nat.repr index) ≠ none) :
    stepInto? s (Nat.repr index) = some (.declared ["items", Nat.repr index] t) := by
  have hindex : Pointer.index? (Nat.repr index) = some index := by
    rw [Pointer.index?_repr] at hread ⊢
    cases hfilter : (some index).filter (· < Number.wordLimit) with
    | none => exact absurd hfilter hread
    | some found =>
        exact (Option.filter_eq_some_iff.mp hfilter).1.symm
  have hposition : isPosition (Nat.repr index) = true := by
    rw [isPosition, hindex]
    rfl
  rw [stepInto?_item htuple hposition]
  simp only [itemAt?, htuple, hindex, Option.bind_some, ht, Option.map_some, Option.some_or]

theorem stepInto?_items {members : Members} (hitems : s.get? "items" = some (.obj members)) :
    stepInto? s Pointer.wildcard = some (.declared ["items"] (.obj members)) := by
  rw [stepInto?_item hitems (by decide)]
  simp only [itemAt?, hitems, Option.some_or]

theorem stepInto?_additional {tuple : List Json} {members : Members}
    (htuple : s.get? "items" = some (.arr tuple))
    (hadditional : s.get? "additionalItems" = some (.obj members)) :
    stepInto? s Pointer.wildcard = some (.declared ["additionalItems"] (.obj members)) := by
  have hindex : Pointer.index? Pointer.wildcard = none := by decide
  rw [stepInto?_item htuple (by decide)]
  simp only [itemAt?, htuple, hindex, Option.bind_none, Option.none_or, additional?, hadditional]

/-- **Fields are found.**  Looking a field up by its place leads back to it, unless a key
on the way is read as something else. -/
theorem Field.located (h : Field root path place s) (hread : ¬Misread root path) :
    locateFrom? root place = some (.declared path s) := by
  induction h with
  | root => rfl
  | @property path place s t properties name hs hproperties ht ih =>
      have habove := ih fun hm => hread (hm.append _)
      refine locateFrom?_concat habove (stepInto?_property hproperties ht fun hposition => hread ?_)
      exact ⟨path, name, [], s, hs.follow, .inl ⟨rfl, hposition⟩⟩
  | @position path place s t tuple index hs htuple ht ih =>
      have habove := ih fun hm => hread (hm.append _)
      obtain ⟨found, hfound, harr⟩ := Option.bind_eq_some_iff.mp htuple
      cases found with
      | arr items =>
          obtain rfl := Option.some.inj harr
          refine locateFrom?_concat habove (stepInto?_position hfound ht fun hnone => hread ?_)
          exact ⟨path, Nat.repr index, [], s, hs.follow, .inr ⟨rfl, ⟨items, hfound⟩, hnone⟩⟩
      | _ => cases harr
  | items hs hitems ih =>
      have habove := ih fun hm => hread (hm.append _)
      exact locateFrom?_concat habove (stepInto?_items hitems)
  | additional hs htuple hadditional ih =>
      have habove := ih fun hm => hread (hm.append _)
      exact locateFrom?_concat habove (stepInto?_additional htuple hadditional)

end Schema

end SchemaForm
