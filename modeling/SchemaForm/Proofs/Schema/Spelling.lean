/-
Two readers of one pointer.

A lookup goes from schema to schema along a data pointer, and writes down the schema pointer as it
goes; what it comes to is then read once more at that pointer.  The lookup takes a key for a fixed
position wherever it is a number, with a sign or with zeros in front too, and writes it down as it
is spelled.  The reader takes only the numeral of a position.  So the two agree on every declared
schema (`lookups_agree_iff`) but where a key on the way is the position of an item in another
spelling (`Loose`), and there the reader finds nothing at all.
-/
import SchemaForm.Proofs.Schema.Lookups

namespace SchemaForm

namespace Schema

variable {s t next : Json} {key pointer : String} {path keys rest : List String}

/-- The key is the position of an item that has a schema of its own, in another spelling than the
numeral of that position. -/
def LooseAt (s : Json) (key : String) : Prop :=
  ∃ tuple index, s.get? "items" = some (.arr tuple) ∧ Pointer.index? key = some index ∧
    index < tuple.length ∧ key ≠ Nat.repr index

/-- A key on the way is a position in another spelling than its numeral. -/
inductive Loose : Json → List String → Prop
  | here {s : Json} {key : String} {rest : List String} : LooseAt s key → Loose s (key :: rest)
  | further {s next : Json} {key : String} {path rest : List String} :
      stepInto? s key = some (.declared path next) → Loose next rest → Loose s (key :: rest)

/-! ## One step -/

/-- Where the key is loose, the step is that into the item. -/
theorem LooseAt.stepInto? (h : LooseAt s key) :
    ∃ t, Schema.stepInto? s key = some (.declared ["items", key] t) := by
  obtain ⟨tuple, index, htuple, hindex, hlt, -⟩ := h
  have hposition : isPosition key = true := by
    rw [isPosition, hindex]
    rfl
  refine ⟨tuple[index], ?_⟩
  rw [stepInto?_item htuple hposition]
  simp only [itemAt?, htuple, hindex, Option.bind_some, List.getElem?_eq_getElem hlt,
    Option.map_some, Option.some_or]

/-- Where the key is loose, nothing is read at the item. -/
theorem LooseAt.follow?_eq_none (h : LooseAt s key) : s.follow? ["items", key] = none := by
  obtain ⟨tuple, index, htuple, hindex, -, hspelled⟩ := h
  exact follow?_position_eq_none htuple hindex hspelled

/-- A step into a declared schema is read back as that schema, unless its key is loose. -/
theorem stepInto?_followed (h : stepInto? s key = some (.declared path t)) :
    s.follow? path = some t ∧ ¬LooseAt s key ∨ s.follow? path = none ∧ LooseAt s key := by
  by_cases hloose : LooseAt s key
  · obtain ⟨u, hu⟩ := hloose.stepInto?
    obtain ⟨rfl, rfl⟩ := Found.declared.inj (Option.some.inj (hu.symm.trans h))
    exact .inr ⟨hloose.follow?_eq_none, hloose⟩
  · rcases (stepInto?_cases h).followed with hread | ⟨-, hkey⟩
    · exact .inl ⟨hread, hloose⟩
    · exact absurd hkey hloose

/-! ## The whole pointer -/

theorem loose_cons_iff (h : stepInto? s key = some (.declared path next)) :
    Loose s (key :: rest) ↔ LooseAt s key ∨ Loose next rest := by
  constructor
  · intro hloose
    cases hloose with
    | here hkey => exact .inl hkey
    | further hstep hrest =>
        obtain ⟨-, rfl⟩ := Found.declared.inj (Option.some.inj (hstep.symm.trans h))
        exact .inr hrest
  · rintro (hkey | hrest)
    · exact .here hkey
    · exact .further h hrest

/-- What a lookup comes to is read back as what it is, or, where a key is loose, not at all. -/
theorem locateFrom?_followed (h : locateFrom? s keys = some (.declared path t)) :
    s.follow? path = some t ∧ ¬Loose s keys ∨ s.follow? path = none ∧ Loose s keys := by
  induction keys generalizing s path with
  | nil =>
      obtain ⟨rfl, rfl⟩ := Found.declared.inj (Option.some.inj h)
      exact .inl ⟨rfl, nofun⟩
  | cons key rest ih =>
      rw [locateFrom?] at h
      split at h
      · next above next hstep =>
          obtain ⟨inner, hinner, he⟩ := Option.map_eq_some_iff.mp h
          cases inner with
          | free below => cases he
          | declared below u =>
              obtain ⟨rfl, rfl⟩ := Found.declared.inj he
              rw [Json.follow?_append, loose_cons_iff hstep]
              rcases stepInto?_followed hstep with ⟨hread, hkey⟩ | ⟨hlost, hkey⟩
              · rw [hread, Option.bind_some]
                simpa only [hkey, false_or] using ih hinner
              · rw [hlost, Option.bind_none]
                exact .inr ⟨rfl, .inl hkey⟩
      · cases h
      · cases h

/-- Numerals are not loose. -/
theorem not_loose_of_numerals
    (h : ∀ key ∈ keys, ∀ index, Pointer.index? key = some index → key = Nat.repr index) :
    ¬Loose s keys := by
  intro hloose
  induction hloose with
  | here hkey =>
      obtain ⟨_, index, -, hindex, -, hne⟩ := hkey
      exact hne (h _ List.mem_cons_self index hindex)
  | further _ _ ih => exact ih fun key hkey => h key (List.mem_cons_of_mem _ hkey)

/-- **The lookups agree.**  A data pointer has a schema exactly where it has a schema pointer.
Where the schema is a declared one, it is read back at the schema pointer, if and only if every key
on the way that is the position of an item is written as its numeral; and where one is not, there
is nothing at the schema pointer. -/
theorem lookups_agree_iff (s : Json) (pointer : String) :
    ((atData? s pointer).isSome ↔ (pointerOfData? s pointer).isSome) ∧
      ∀ path t, locate? s pointer = some (.declared path t) →
        atData? s pointer = some t ∧ pointerOfData? s pointer = some (Pointer.ofSegments path) ∧
        (s.at? (Pointer.ofSegments path) = some t ↔
          ∀ keys, Pointer.segments? pointer = some keys → ¬Loose s keys) ∧
        (s.at? (Pointer.ofSegments path) = none ↔
          ∃ keys, Pointer.segments? pointer = some keys ∧ Loose s keys) := by
  refine ⟨by rw [atData?, pointerOfData?, Option.isSome_map, Option.isSome_map], ?_⟩
  intro path t hlocate
  obtain ⟨keys, hkeys, hfound⟩ := Option.bind_eq_some_iff.mp hlocate
  have hsole : ∀ other, Pointer.segments? pointer = some other → other = keys := fun _ hother =>
    Option.some.inj (hother.symm.trans hkeys)
  refine ⟨by rw [atData?, hlocate]; rfl, by rw [pointerOfData?, hlocate]; rfl, ?_⟩
  rw [Json.at?_ofSegments]
  rcases locateFrom?_followed hfound with ⟨hread, hstrict⟩ | ⟨hlost, hloose⟩
  · refine ⟨iff_of_true hread fun other hother => hsole other hother ▸ hstrict, ?_⟩
    refine iff_of_false (by rw [hread]; exact Option.some_ne_none t) ?_
    rintro ⟨other, hother, hloose⟩
    exact hstrict (hsole other hother ▸ hloose)
  · refine ⟨iff_of_false (by rw [hlost]; exact (Option.some_ne_none t).symm) ?_,
      iff_of_true hlost ⟨keys, hkeys, hloose⟩⟩
    exact fun hstrict => hstrict keys hkeys hloose

/-- A list of fixed positions below a property, whose second item is looked up. -/
theorem lookups_agree_iff_point :
    let number : Json := .obj [("type", .str "number")]
    let point : Json := .obj [("items", .arr [.obj [], number])]
    let s : Json := .obj [("properties", .obj [("at", point)])]
    s.at? "/properties/at/items/1" = some number ∧ ¬Loose s ["at", "1"] := by
  intro number point s
  have hlocate : locate? s "/at/1" =
      some (.declared ["properties", "at", "items", "1"] number) := by rfl
  have hkeys : Pointer.segments? "/at/1" = some ["at", "1"] := by decide
  have hread : s.at? (Pointer.ofSegments ["properties", "at", "items", "1"]) = some number := by
    rfl
  obtain ⟨-, hagree⟩ := lookups_agree_iff s "/at/1"
  obtain ⟨-, -, hsame, -⟩ := hagree _ _ hlocate
  exact ⟨hread, hsame.mp hread _ hkeys⟩

/-- A position with a zero in front is looked up, and not read back. -/
theorem not_lookups_agree : ¬∀ s pointer,
    ((atData? s pointer).isSome ↔ (pointerOfData? s pointer).isSome) ∧
      ∀ path t, locate? s pointer = some (.declared path t) →
        atData? s pointer = some t ∧ pointerOfData? s pointer = some (Pointer.ofSegments path) ∧
        s.at? (Pointer.ofSegments path) = some t := by
  intro h
  let s : Json := .obj [("items", .arr [.obj [("type", .str "number")]])]
  have hlocate : locate? s "/00" =
      some (.declared ["items", "00"] (.obj [("type", .str "number")])) := by rfl
  have hlost : s.at? (Pointer.ofSegments ["items", "00"]) = none := by rfl
  obtain ⟨-, hagree⟩ := h s "/00"
  obtain ⟨-, -, hread⟩ := hagree _ _ hlocate
  exact Option.some_ne_none _ (hread.symm.trans hlost)

end Schema

end SchemaForm
