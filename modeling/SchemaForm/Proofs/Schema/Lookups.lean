/-
What a lookup finds.

A data pointer is looked up one segment after the other, and there are five ways to go on
(`StepsTo`).  Three of them are the steps of a field; the other two lead to schemas that describe
data which no field is for: additional properties, and additional items beside no list of item
schemas.  What is found stands in the schema, if anything does at its pointer (`found_stands`):
where a schema is declared it is that one, and an open place holds no schema.
-/
import SchemaForm.Proofs.Schema.Fields

namespace SchemaForm

/-- A numeral that is read as a position and is the position of an item is written in one way. -/
theorem Pointer.position?_of_index? {key : String} {index : Nat} (h : index? key = some index) :
    position? key = none ∨ key = Nat.repr index := by
  cases hposition : position? key with
  | none => exact .inl rfl
  | some i =>
      obtain rfl := eq_repr_of_position? hposition
      rw [index?_repr] at h
      obtain rfl : i = index := Option.some.inj (Option.filter_eq_some_iff.mp h).1
      exact .inr rfl

namespace Schema

variable {root s t : Json} {place path above : List String} {key keyword : String}
  {found : Found}

/-! ## One step -/

/-- The ways of stepping into a schema. -/
inductive StepsTo (s : Json) (key : String) : Found → Prop
  | property {properties : Members} {t : Json} :
      (s.get? "properties").bind Json.obj? = some properties →
      Table.get? properties key = some t → StepsTo s key (.declared ["properties", key] t)
  | items {members : Members} : s.get? "items" = some (.obj members) → isPosition key = true →
      StepsTo s key (.declared ["items"] (.obj members))
  | position {tuple : List Json} {index : Nat} {t : Json} :
      s.get? "items" = some (.arr tuple) → Pointer.index? key = some index →
      tuple[index]? = some t → StepsTo s key (.declared ["items", key] t)
  | additionalItems {members : Members} : s.get? "additionalItems" = some (.obj members) →
      isPosition key = true → (∀ tuple index, s.get? "items" = some (.arr tuple) →
        Pointer.index? key = some index → tuple[index]? = none) →
      StepsTo s key (.declared ["additionalItems"] (.obj members))
  | additionalProperties {members : Members} :
      s.get? "additionalProperties" = some (.obj members) →
      StepsTo s key (.declared ["additionalProperties"] (.obj members))
  | free {keyword : String} {members : Members} : s = .obj members →
      (s.get? keyword).bind Json.obj? = none → StepsTo s key (.free [keyword])

theorem additional?_cases (h : additional? s keyword = some found) :
    (∃ members, s.get? keyword = some (.obj members) ∧
        found = .declared [keyword] (.obj members)) ∨
      (s.get? keyword).bind Json.obj? = none ∧ found = .free [keyword] := by
  unfold additional? at h
  split at h
  · next members hget => exact .inl ⟨members, hget, (Option.some.inj h).symm⟩
  · cases h
  · next hnot _ =>
      refine .inr ⟨?_, (Option.some.inj h).symm⟩
      cases hget : s.get? keyword with
      | none => rfl
      | some v =>
          cases v with
          | obj members => exact absurd hget (hnot members)
          | _ => rfl

theorem itemAt?_cases {members : Members} (hs : s = .obj members) (hkey : isPosition key = true)
    (h : itemAt? s key = some found) : StepsTo s key found := by
  rcases Option.or_eq_some_iff.mp h with hdeclared | ⟨hnone, hadditional⟩
  · split at hdeclared
    · next items hitems =>
        obtain rfl := Option.some.inj hdeclared
        exact .items hitems hkey
    · next tuple htuple =>
        obtain ⟨index, hindex, hdeclared⟩ := Option.bind_eq_some_iff.mp hdeclared
        obtain ⟨t, ht, rfl⟩ := Option.map_eq_some_iff.mp hdeclared
        exact .position htuple hindex ht
    · cases hdeclared
  · rcases additional?_cases hadditional with ⟨items, hitems, rfl⟩ | ⟨hopen, rfl⟩
    · refine .additionalItems hitems hkey fun tuple index htuple hindex => ?_
      rw [htuple] at hnone
      simp only [hindex, Option.bind_some] at hnone
      exact Option.map_eq_none_iff.mp hnone
    · exact .free hs hopen

theorem stepInto?_cases (h : stepInto? s key = some found) : StepsTo s key found := by
  -- Only an object has a type or a keyword.
  obtain ⟨members, hs⟩ : ∃ members, s = .obj members := by
    cases s with
    | obj members => exact ⟨members, rfl⟩
    | _ => cases h
  simp only [stepInto?] at h
  split at h
  · next hitem => exact itemAt?_cases hs (Bool.and_eq_true_iff.mp hitem).2 h
  · split at h
    · unfold propertyAt? at h
      split at h
      · next t ht =>
          obtain ⟨properties, hproperties, ht⟩ := Option.bind_eq_some_iff.mp ht
          obtain rfl := Option.some.inj h
          cases properties with
          | obj entries => exact .property (by rw [hproperties]; rfl) ht
          | _ => cases ht
      · rcases additional?_cases h with ⟨entries, hentries, rfl⟩ | ⟨hopen, rfl⟩
        · exact .additionalProperties hentries
        · exact .free hs hopen
    · cases h

/-! ## Several steps -/

/-- The last step of a lookup. -/
theorem locateFrom?_concat_inv (h : locateFrom? root (place ++ [key]) = some found) :
    (∃ above s next, locateFrom? root place = some (.declared above s) ∧ StepsTo s key next ∧
        found = next.under above) ∨
      ∃ above, locateFrom? root place = some (.free above) ∧ found = .free above := by
  induction place generalizing root found with
  | nil =>
      refine .inl ⟨[], root, found, rfl, ?_, ?_⟩
      · rw [List.nil_append, locateFrom?] at h
        split at h
        · next path s hs =>
            have he : found = .declared path s := by
              simpa [locateFrom?, Found.under] using h.symm
            exact he ▸ stepInto?_cases hs
        · next path hs =>
            obtain rfl := Option.some.inj h
            exact stepInto?_cases hs
        · cases h
      · cases found <;> rfl
  | cons first rest ih =>
      rw [List.cons_append, locateFrom?] at h
      rw [locateFrom?]
      split at h
      · next path s _ =>
          obtain ⟨inner, hinner, rfl⟩ := Option.map_eq_some_iff.mp h
          rcases ih hinner with ⟨above, s', next, habove, hnext, rfl⟩ | ⟨above, habove, rfl⟩
          · refine .inl ⟨path ++ above, s', next, ?_, hnext, ?_⟩
            · simp only [habove, Option.map_some]
              rfl
            · cases next <;> simp [Found.under]
          · refine .inr ⟨path ++ above, ?_, rfl⟩
            simp only [habove, Option.map_some]
            rfl
      · next path _ => exact .inr ⟨path, rfl, (Option.some.inj h).symm⟩
      · cases h

/-- What is found is what stands at its pointer, if anything does; an open place holds no
object. -/
def Found.Stands (root : Json) : Found → Prop
  | .declared path s => root.follow? path = some s ∨ root.follow? path = none
  | .free path => ∀ v, root.follow? path = some v → v.obj? = none

theorem follow?_none (h : root.follow? path = none) (more : List String) :
    root.follow? (path ++ more) = none := by
  rw [Json.follow?_append, h, Option.bind_none]

/-- At a fixed position, a reader takes no spelling but the numeral. -/
theorem follow?_position_eq_none {tuple : List Json} {index : Nat}
    (htuple : s.get? "items" = some (.arr tuple)) (hindex : Pointer.index? key = some index)
    (hspelled : key ≠ Nat.repr index) : s.follow? ["items", key] = none := by
  have hread : Pointer.position? key = none :=
    (Pointer.position?_of_index? hindex).resolve_right hspelled
  rw [follow?_cons (step?_of_get? htuple), Json.follow?, Json.step?, hread, Option.bind_none,
    Option.bind_none]

/-- A declared schema that is stepped into is read at its path, unless it is that of a fixed
position which is not written as its numeral. -/
theorem StepsTo.followed (h : StepsTo s key (.declared path t)) :
    s.follow? path = some t ∨ path = ["items", key] ∧
      ∃ tuple index, s.get? "items" = some (.arr tuple) ∧ Pointer.index? key = some index ∧
        index < tuple.length ∧ key ≠ Nat.repr index := by
  cases h with
  | @property properties _ hproperties ht =>
      obtain ⟨held, hheld, hobj⟩ := Option.bind_eq_some_iff.mp hproperties
      refine .inl ?_
      cases held with
      | obj entries =>
          obtain rfl := Option.some.inj hobj
          have hstep : (Json.obj entries).step? key = some t := ht
          rw [follow?_cons (step?_of_get? hheld), follow?_cons hstep]
          rfl
      | _ => cases hobj
  | items hitems _ => exact .inl (follow?_cons (step?_of_get? hitems) [])
  | @position tuple index _ htuple hindex ht =>
      by_cases hspelled : key = Nat.repr index
      · refine .inl ?_
        rw [follow?_cons (step?_of_get? htuple), Json.follow?, Json.step?, hspelled,
          Pointer.position?_repr, Option.bind_some, ht]
        rfl
      · exact .inr ⟨rfl, tuple, index, htuple, hindex, (List.getElem?_eq_some_iff.mp ht).1,
          hspelled⟩
  | additionalItems hitems _ _ => exact .inl (follow?_cons (step?_of_get? hitems) [])
  | additionalProperties hmembers => exact .inl (follow?_cons (step?_of_get? hmembers) [])

/-- What is stepped into stands in the schema. -/
theorem StepsTo.stands (h : StepsTo s key found) : found.Stands s := by
  cases found with
  | declared path t =>
      rcases h.followed with hread | ⟨rfl, tuple, index, htuple, hindex, -, hspelled⟩
      · exact .inl hread
      · exact .inr (follow?_position_eq_none htuple hindex hspelled)
  | free path =>
      cases h with
      | free hs hopen =>
          intro v hv
          obtain ⟨w, hw, hv⟩ := Option.bind_eq_some_iff.mp hv
          obtain rfl : w = v := Option.some.inj hv
          subst hs
          rw [show Json.get? (.obj _) _ = some w from hw] at hopen
          exact hopen

theorem Found.Stands.under {next : Found} (h : next.Stands s)
    (habove : root.follow? above = some s ∨ root.follow? above = none) :
    (next.under above).Stands root := by
  rcases habove with habove | habove
  · cases next with
    | declared path t =>
        show root.follow? (above ++ path) = some t ∨ root.follow? (above ++ path) = none
        rw [Json.follow?_append, habove, Option.bind_some]
        exact h
    | free path =>
        intro v hv
        rw [Json.follow?_append, habove, Option.bind_some] at hv
        exact h v hv
  · cases next with
    | declared path t => exact .inr (follow?_none habove path)
    | free path =>
        intro v hv
        rw [follow?_none habove path] at hv
        cases hv

theorem found_stands (h : locateFrom? root place = some found) : found.Stands root := by
  induction place using List.reverseRecOn generalizing found with
  | nil =>
      obtain rfl := Option.some.inj h
      exact .inl rfl
  | append_singleton place key ih =>
      rcases locateFrom?_concat_inv h with ⟨above, s, next, habove, hnext, rfl⟩ |
          ⟨above, habove, rfl⟩
      · exact hnext.stands.under (ih habove)
      · exact ih habove

end Schema

end SchemaForm
