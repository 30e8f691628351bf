/-
A lookup and the way back.

A data pointer is looked up key by key, and its schema pointer is read back keyword by keyword.
Where every key steps into a declared schema, and none by `additionalProperties` (`Declared`), the
way back is one segment for each key (`Steps`): the name of a property, the numeral of a fixed
position, and `-` for any other item.  So the projection of the schema pointer that a lookup gives
is the generic form of the data pointer (`projection_undoes_lookup`), however the properties are
named.
-/
import SchemaForm.Proofs.Schema.Legible
import SchemaForm.Proofs.Schema.Lookups

namespace SchemaForm

namespace Schema

variable {s t found : Json} {key segment keyword pointer : String}
  {keys path data : List String}

/-! ## One step -/

/-- What the key of a data pointer leads through: the path into the schema, the segment that it is
read back as, and the schema it comes to. -/
inductive Steps (s : Json) (key : String) : List String → String → Json → Prop
  | property {t : Json} : ¬(isArrayLike s = true ∧ isPosition key = true) →
      (s.get? "properties").bind (·.get? key) = some t → Steps s key ["properties", key] key t
  | position {tuple : List Json} {i : Nat} {t : Json} : s.get? "items" = some (.arr tuple) →
      Pointer.index? key = some i → tuple[i]? = some t →
      Steps s key ["items", key] (Nat.repr i) t
  | items {members : Members} : s.get? "items" = some (.obj members) → isPosition key = true →
      Steps s key ["items"] Pointer.wildcard (.obj members)
  | additional {members : Members} : isArrayLike s = true → isPosition key = true →
      (∀ entries, s.get? "items" ≠ some (.obj entries)) →
      (∀ tuple i, s.get? "items" = some (.arr tuple) → Pointer.index? key = some i →
        tuple[i]? = none) →
      s.get? "additionalItems" = some (.obj members) →
      Steps s key ["additionalItems"] Pointer.wildcard (.obj members)

theorem additional?_declared (h : additional? s keyword = some (.declared path t)) :
    path = [keyword] ∧ ∃ members, t = .obj members ∧ s.get? keyword = some (.obj members) := by
  rcases additional?_cases h with ⟨members, hmembers, he⟩ | ⟨-, he⟩
  · obtain ⟨rfl, rfl⟩ := Found.declared.inj he
    exact ⟨rfl, members, rfl, hmembers⟩
  · cases he

theorem itemAt?_declared (harray : isArrayLike s = true) (hposition : isPosition key = true)
    (h : itemAt? s key = some (.declared path t)) : ∃ segment, Steps s key path segment t := by
  rcases Option.or_eq_some_iff.mp h with hdeclared | ⟨hnone, hadditional⟩
  · split at hdeclared
    · next members hitems =>
        obtain ⟨rfl, rfl⟩ := Found.declared.inj (Option.some.inj hdeclared)
        exact ⟨_, .items hitems hposition⟩
    · next tuple htuple =>
        obtain ⟨i, hi, hdeclared⟩ := Option.bind_eq_some_iff.mp hdeclared
        obtain ⟨item, hitem, he⟩ := Option.map_eq_some_iff.mp hdeclared
        obtain ⟨rfl, rfl⟩ := Found.declared.inj he
        exact ⟨_, .position htuple hi hitem⟩
    · cases hdeclared
  · obtain ⟨rfl, members, rfl, hmembers⟩ := additional?_declared hadditional
    refine ⟨_, .additional harray hposition (fun entries hentries => ?_)
      (fun tuple i htuple hi => ?_) hmembers⟩
    · rw [hentries] at hnone
      cases hnone
    · rw [htuple] at hnone
      simp only [hi, Option.bind_some] at hnone
      exact Option.map_eq_none_iff.mp hnone

/-- A position without an item schema of its own is an additional item. -/
theorem itemAt?_additional (hlist : ∀ entries, s.get? "items" ≠ some (.obj entries))
    (htuple : ∀ tuple i, s.get? "items" = some (.arr tuple) → Pointer.index? key = some i →
      tuple[i]? = none) : itemAt? s key = additional? s "additionalItems" := by
  unfold itemAt?
  cases hitems : s.get? "items" with
  | none => rfl
  | some items =>
      cases items with
      | obj entries => exact absurd hitems (hlist entries)
      | arr tuple =>
          cases hi : Pointer.index? key with
          | none => rfl
          | some i =>
              dsimp only
              rw [Option.bind_some, htuple tuple i hitems hi]
              rfl
      | _ => rfl

/-- The steps are those of the lookup into a declared schema other than that of additional
properties. -/
theorem exists_steps_iff : (∃ segment, Steps s key path segment t) ↔
    stepInto? s key = some (.declared path t) ∧ path ≠ ["additionalProperties"] := by
  constructor
  · rintro ⟨segment, h⟩
    cases h with
    | property hread ht =>
        have hobject : (isTyped s "object" || s.has "properties") = true := by
          obtain ⟨properties, hproperties, -⟩ := Option.bind_eq_some_iff.mp ht
          rw [Json.has, hproperties]
          exact Bool.or_true _
        refine ⟨?_, fun he => List.cons_ne_nil _ _ (List.cons.inj he).2⟩
        rw [stepInto?_of_not_position hread, if_pos hobject]
        simp only [propertyAt?, ht]
    | @position tuple i t htuple hi ht =>
        have hposition : isPosition key = true := by
          rw [isPosition, hi]
          rfl
        refine ⟨?_, fun he => List.cons_ne_nil _ _ (List.cons.inj he).2⟩
        rw [stepInto?_item htuple hposition]
        simp only [itemAt?, htuple, hi, Option.bind_some, ht, Option.map_some, Option.some_or]
    | items hitems hposition => exact ⟨stepInto?_list hitems hposition, by decide⟩
    | additional harray hposition hlist htuple hmembers =>
        refine ⟨?_, by decide⟩
        rw [stepInto?_of_position harray hposition, itemAt?_additional hlist htuple, additional?,
          hmembers]
  · rintro ⟨h, hne⟩
    by_cases hread : isArrayLike s = true ∧ isPosition key = true
    · rw [stepInto?_of_position hread.1 hread.2] at h
      exact itemAt?_declared hread.1 hread.2 h
    · rw [stepInto?_of_not_position hread] at h
      split at h
      · unfold propertyAt? at h
        split at h
        · next property hproperty =>
            obtain ⟨rfl, rfl⟩ := Found.declared.inj (Option.some.inj h)
            exact ⟨_, .property hread hproperty⟩
        · exact absurd (additional?_declared h).1 hne
      · cases h

/-! ## The whole walk -/

/-- The walk of the keys of a data pointer: the path that it takes into the schema, the segments
that the path is read back as, and the schema that it comes to. -/
inductive Walk : Json → List String → List String → List String → Json → Prop
  | here {s : Json} : Walk s [] [] [] s
  | step {s next found : Json} {key segment : String} {keys above path data : List String} :
      Steps s key above segment next → Walk next keys path data found →
      Walk s (key :: keys) (above ++ path) (segment :: data) found

/-- Every key steps into a declared schema, and none by `additionalProperties`. -/
inductive Declared : Json → List String → Prop
  | here {s : Json} : Declared s []
  | step {s next : Json} {key : String} {keys path : List String} :
      stepInto? s key = some (.declared path next) → path ≠ ["additionalProperties"] →
      Declared next keys → Declared s (key :: keys)

theorem Declared.exists_walk (h : Declared s keys) :
    ∃ path data found, Walk s keys path data found := by
  induction h with
  | here => exact ⟨_, _, _, .here⟩
  | step hstep hne _ ih =>
      obtain ⟨segment, hsegment⟩ := exists_steps_iff.mpr ⟨hstep, hne⟩
      obtain ⟨path, data, found, hwalk⟩ := ih
      exact ⟨_, _, _, .step hsegment hwalk⟩

theorem Walk.length_eq (h : Walk s keys path data found) : data.length = keys.length := by
  induction h with
  | here => rfl
  | step _ _ ih => rw [List.length_cons, List.length_cons, ih]

/-- A lookup takes the path of the walk. -/
theorem Walk.located (h : Walk s keys path data found) :
    locateFrom? s keys = some (.declared path found) := by
  induction h with
  | here => rfl
  | step hstep _ ih =>
      have hinto := (exists_steps_iff.mp ⟨_, hstep⟩).1
      simp only [locateFrom?, hinto, ih, Option.map_some, Found.under]

theorem Steps.leads (h : Steps s key path segment t) : Leads s path [segment] t := by
  cases h with
  | property _ ht => exact .property ht .here
  | position htuple hi ht => exact .tuple htuple hi ht .here
  | items hitems _ => exact .list hitems rfl .here
  | additional _ _ _ _ hmembers => exact .additional hmembers .here

/-- The path of the walk leads back through the data. -/
theorem Walk.leads (h : Walk s keys path data found) : Leads s path data found := by
  induction h with
  | here => exact .here
  | step hstep _ ih => exact hstep.leads.trans ih

/-- **Projection undoes lookup.**  A data pointer each of whose keys steps into a declared schema,
and none by `additionalProperties`, has a schema pointer, and the projection of that has one
segment for each key: the key where a property was stepped through, the numeral of the position
where a tuple was, and `-` where a list or the additional items were. -/
theorem projection_undoes_lookup (hp : Pointer.segments? pointer = some keys)
    (h : Declared s keys) : ∃ path data found, Walk s keys path data found ∧
      pointerOfData? s pointer = some (Pointer.ofSegments path) ∧
      toDataPointer? s (Pointer.ofSegments path) = some (Pointer.ofSegments data) ∧
      data.length = keys.length := by
  obtain ⟨path, data, found, hwalk⟩ := h.exists_walk
  refine ⟨path, data, found, hwalk, ?_, ?_, hwalk.length_eq⟩
  · rw [pointerOfData?, locate?, hp, Option.bind_some, hwalk.located, Option.map_some, Found.path]
  · rw [toDataPointer?, Pointer.segments?_ofSegments, Option.bind_some,
      dataSegments?_eq_some.mpr ⟨found, hwalk.leads⟩, Option.map_some]

/-- A property named like a keyword is a list with a fixed position, below which a property is
named like a position. -/
theorem projection_undoes_lookup_items :
    let point : Json := .obj [("properties", .obj [("7", .obj [])])]
    let list : Json := .obj [("items", .arr [point]), ("additionalItems", point)]
    let s : Json := .obj [("properties", .obj [("items", list)])]
    Declared s ["items", "+0", "7"] ∧ ∃ path data found,
      Walk s ["items", "+0", "7"] path data found ∧
        pointerOfData? s "/items/+0/7" = some (Pointer.ofSegments path) ∧
        toDataPointer? s (Pointer.ofSegments path) = some (Pointer.ofSegments data) ∧
        data.length = 3 := by
  intro point list s
  have hlist : stepInto? s "items" = some (.declared ["properties", "items"] list) := rfl
  have hpoint : stepInto? list "+0" = some (.declared ["items", "+0"] point) := rfl
  have hname : stepInto? point "7" = some (.declared ["properties", "7"] (.obj [])) := rfl
  have hdeclared : Declared s ["items", "+0", "7"] :=
    .step hlist (by decide) (.step hpoint (by decide) (.step hname (by decide) .here))
  have hp : Pointer.segments? "/items/+0/7" = some ["items", "+0", "7"] := by decide
  exact ⟨hdeclared, projection_undoes_lookup hp hdeclared⟩

example : toDataPointer? (.obj [("properties", .obj [("items", .obj [("items", .arr [.obj
    [("properties", .obj [("7", .obj [])])]])])])]) "/properties/items/items/+0/properties/7" =
    some "/items/0/7" := by decide

end Schema

end SchemaForm
