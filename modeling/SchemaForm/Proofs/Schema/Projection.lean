/-
Schema paths and the data they lead to.

`Schema.dataSegments?` leaves the keywords of a schema path out.  What it reads off a path it
reads off every longer one first, so that a schema above another one describes data above
(`dataSegments?_of_prefix`).  A path leads nowhere in the data as soon as it passes a keyword
that places are not followed through (`dataSegments?_of_keyword`), if it is read as a keyword
there: below `properties` there is a name, and any name will do.  `Schematic` paths are those
that end where a keyword follows.
-/
import SchemaForm.Proofs.Pointer.Segments
import SchemaForm.Proofs.Reference.Aimed
import SchemaForm.Schema.Lookup

namespace SchemaForm

namespace Schema

variable {schema : Json} {path above data : List String} {key : String}

/-- A schema path that ends where a keyword follows, and not a name. -/
inductive Schematic : List String → Prop
  | nil : Schematic []
  | property {name : String} {rest : List String} : Schematic rest →
      Schematic ("properties" :: name :: rest)
  | keyword {key : String} {rest : List String} : key ≠ "properties" → Schematic rest →
      Schematic (key :: rest)

theorem Schematic.concat (h : Schematic path) (hkey : key ≠ "properties") :
    Schematic (path ++ [key]) := by
  induction h with
  | nil => exact .keyword hkey .nil
  | property _ ih => exact .property ih
  | keyword hother _ ih => exact .keyword hother ih

theorem Schematic.named (h : Schematic path) (name : String) :
    Schematic (path ++ ["properties", name]) := by
  induction h with
  | nil => exact .property .nil
  | property _ ih => exact .property ih
  | keyword hother _ ih => exact .keyword hother ih

theorem repr_ne_properties (i : Nat) : Nat.repr i ≠ "properties" := by
  intro h
  have hposition := Pointer.position?_repr i
  rw [h] at hposition
  have hnone : Pointer.position? "properties" = none := by decide
  exact absurd (hnone.symm.trans hposition) (Option.some_ne_none i).symm

/-! ## One step of the projection -/

theorem dataSegments?_properties (schema : Json) (key : String) (rest : List String) :
    dataSegments? schema ("properties" :: key :: rest) =
      ((schema.get? "properties").bind (·.get? key)).bind fun next =>
        (dataSegments? next rest).map (key :: ·) := by
  rw [dataSegments?]

theorem dataSegments?_additionalItems (schema : Json) (rest : List String) :
    dataSegments? schema ("additionalItems" :: rest) =
      (schema.get? "additionalItems").bind fun next =>
        (dataSegments? next rest).map (Pointer.wildcard :: ·) := by
  rw [dataSegments?]

theorem dataSegments?_tuple {tuple : List Json} (h : schema.get? "items" = some (.arr tuple))
    (key : String) (rest : List String) : dataSegments? schema ("items" :: key :: rest) =
      (Pointer.index? key).bind fun i =>
        tuple[i]?.bind fun next => (dataSegments? next rest).map (Nat.repr i :: ·) := by
  rw [dataSegments?.eq_def]
  simp only [h]

theorem dataSegments?_tuple_nil {tuple : List Json}
    (h : schema.get? "items" = some (.arr tuple)) : dataSegments? schema ["items"] = none := by
  rw [dataSegments?.eq_def]
  simp only [h]

theorem dataSegments?_items {next : Json} (h : schema.get? "items" = some next)
    (harr : next.arr? = none) (rest : List String) :
    dataSegments? schema ("items" :: rest) =
      (dataSegments? next rest).map (Pointer.wildcard :: ·) := by
  cases next with
  | arr tuple => cases harr
  | _ =>
      rw [dataSegments?.eq_def]
      simp only [h]

theorem dataSegments?_items_none (h : schema.get? "items" = none) (rest : List String) :
    dataSegments? schema ("items" :: rest) = none := by
  rw [dataSegments?.eq_def]
  simp only [h]

theorem dataSegments?_other (hproperties : key ≠ "properties") (hitems : key ≠ "items")
    (hadditional : key ≠ "additionalItems") (schema : Json) (rest : List String) :
    dataSegments? schema (key :: rest) = none := by
  unfold dataSegments?
  split
  · next h => exact absurd h (List.cons_ne_nil _ _)
  · next h => exact absurd (List.cons.inj h).1 hproperties
  · next h => exact absurd (List.cons.inj h).1 hitems
  · next h => exact absurd (List.cons.inj h).1 hadditional
  · rfl

/-! ## Paths that lead nowhere -/

/-- What lies below a keyword is not described when it is not so below any schema there. -/
theorem dataSegments?_cons_eq_none {first : String} {more : List String}
    (h : ∀ next, dataSegments? next more = none) (hfirst : first ≠ "properties")
    (htuple : first = "items" → ∀ tuple, schema.get? "items" = some (.arr tuple) →
      dataSegments? schema ("items" :: more) = none) :
    dataSegments? schema (first :: more) = none := by
  by_cases hi : first = "items"
  · subst hi
    cases hget : schema.get? "items" with
    | none => exact dataSegments?_items_none hget more
    | some next =>
        cases next with
        | arr tuple => exact htuple rfl tuple hget
        | _ => rw [dataSegments?_items hget rfl, h, Option.map_none]
  · by_cases ha : first = "additionalItems"
    · subst ha
      rw [dataSegments?_additionalItems, Option.bind_eq_none_iff]
      intro next _
      rw [h, Option.map_none]
    · exact dataSegments?_other hfirst hi ha schema more

/-- Nothing is followed below a keyword that places are not followed through. -/
theorem dataSegments?_of_keyword (h : Schematic path) (hkey : isFollowed key = false)
    (schema : Json) (rest : List String) : dataSegments? schema (path ++ key :: rest) = none := by
  simp only [isFollowed, Bool.or_eq_false_iff, List.contains_cons, List.contains_nil,
    Bool.or_false, beq_eq_false_iff_ne, Option.isSome_eq_false_iff, Option.isNone_iff_eq_none]
    at hkey
  obtain ⟨⟨hproperties, hitems, hadditional⟩, hindex⟩ := hkey
  -- A list of item schemas takes two segments at once, so the induction is on the length.
  induction hn : path.length using Nat.strongRecOn generalizing path schema with
  | ind n ih =>
      subst hn
      have hbelow : ∀ {more : List String}, Schematic more → more.length < path.length →
          ∀ next, dataSegments? next (more ++ key :: rest) = none := by
        intro more hmore hlt next
        exact ih _ hlt hmore next rfl
      cases h with
      | nil => exact dataSegments?_other hproperties hitems hadditional schema rest
      | @property name more hmore =>
          rw [List.cons_append, List.cons_append, dataSegments?_properties,
            Option.bind_eq_none_iff]
          intro next _
          rw [hbelow hmore (by simp only [List.length_cons]; omega), Option.map_none]
      | @keyword first more hfirst hmore =>
          rw [List.cons_append]
          refine dataSegments?_cons_eq_none
            (hbelow hmore (by simp only [List.length_cons]; omega)) hfirst ?_
          rintro rfl tuple hget
          cases hmore with
          | nil =>
              rw [List.nil_append, dataSegments?_tuple hget, hindex, Option.bind_none]
          | @property name more hmore =>
              rw [List.cons_append, dataSegments?_tuple hget,
                show Pointer.index? "properties" = none by decide, Option.bind_none]
          | @keyword second more hsecond hmore =>
              rw [List.cons_append, dataSegments?_tuple hget, Option.bind_eq_none_iff]
              intro i _
              rw [Option.bind_eq_none_iff]
              intro next _
              rw [hbelow hmore (by simp only [List.length_cons]; omega), Option.map_none]

/-! ## Where a path leads -/

/-- The schema path leads from the first schema to the last one, and through the data meanwhile. -/
inductive Leads : Json → List String → List String → Json → Prop
  | here {schema : Json} : Leads schema [] [] schema
  | property {schema next found : Json} {key : String} {rest data : List String} :
      (schema.get? "properties").bind (·.get? key) = some next → Leads next rest data found →
      Leads schema ("properties" :: key :: rest) (key :: data) found
  | tuple {schema next found : Json} {items : List Json} {key : String} {i : Nat}
      {rest data : List String} : schema.get? "items" = some (.arr items) →
      Pointer.index? key = some i → items[i]? = some next → Leads next rest data found →
      Leads schema ("items" :: key :: rest) (Nat.repr i :: data) found
  | list {schema next found : Json} {rest data : List String} :
      schema.get? "items" = some next → next.arr? = none → Leads next rest data found →
      Leads schema ("items" :: rest) (Pointer.wildcard :: data) found
  | additional {schema next found : Json} {rest data : List String} :
      schema.get? "additionalItems" = some next → Leads next rest data found →
      Leads schema ("additionalItems" :: rest) (Pointer.wildcard :: data) found

theorem exists_leads (h : dataSegments? schema path = some data) :
    ∃ found, Leads schema path data found := by
  induction schema, path using dataSegments?.induct generalizing data with
  | case1 schema =>
      obtain rfl := Option.some.inj h
      exact ⟨schema, .here⟩
  | case2 schema key rest ih =>
      rw [dataSegments?_properties] at h
      obtain ⟨next, hnext, h⟩ := Option.bind_eq_some_iff.mp h
      obtain ⟨more, hmore, rfl⟩ := Option.map_eq_some_iff.mp h
      obtain ⟨found, hfound⟩ := ih next hmore
      exact ⟨found, .property hnext hfound⟩
  | case3 schema items key rest hget ih =>
      rw [dataSegments?_tuple hget] at h
      obtain ⟨i, hi, h⟩ := Option.bind_eq_some_iff.mp h
      obtain ⟨next, hnext, h⟩ := Option.bind_eq_some_iff.mp h
      obtain ⟨more, hmore, rfl⟩ := Option.map_eq_some_iff.mp h
      obtain ⟨found, hfound⟩ := ih next hmore
      exact ⟨found, .tuple hget hi hnext hfound⟩
  | case4 schema items hget =>
      rw [dataSegments?_tuple_nil hget] at h
      cases h
  | case5 schema next rest hcons hnil hget ih =>
      have harr : next.arr? = none := by
        cases next with
        | arr items =>
            cases rest with
            | nil => exact absurd rfl (hnil items rfl)
            | cons key rest => exact absurd rfl (hcons items key rest rfl)
        | _ => rfl
      rw [dataSegments?_items hget harr] at h
      obtain ⟨more, hmore, rfl⟩ := Option.map_eq_some_iff.mp h
      obtain ⟨found, hfound⟩ := ih hmore
      exact ⟨found, .list hget harr hfound⟩
  | case6 schema rest hget =>
      rw [dataSegments?_items_none hget] at h
      cases h
  | case7 schema rest ih =>
      rw [dataSegments?_additionalItems] at h
      obtain ⟨next, hnext, h⟩ := Option.bind_eq_some_iff.mp h
      obtain ⟨more, hmore, rfl⟩ := Option.map_eq_some_iff.mp h
      obtain ⟨found, hfound⟩ := ih next hmore
      exact ⟨found, .additional hnext hfound⟩
  | case8 path schema hnil hproperties hitems hadditional =>
      rw [dataSegments?.eq_def] at h
      split at h
      · exact absurd rfl hnil
      · next key rest => exact absurd rfl (hproperties key rest)
      · next rest => exact absurd rfl (hitems rest)
      · next rest => exact absurd rfl (hadditional rest)
      · cases h

/-- Behind a path that leads somewhere the projection goes on from there. -/
theorem Leads.append {found : Json} (h : Leads schema path data found) (rest : List String) :
    dataSegments? schema (path ++ rest) = (dataSegments? found rest).map (data ++ ·) := by
  induction h with
  | @here schema =>
      rw [List.nil_append]
      cases dataSegments? schema rest <;> rfl
  | property hnext _ ih =>
      rw [List.cons_append, List.cons_append, dataSegments?_properties, hnext, Option.bind_some, ih,
        Option.map_map]
      rfl
  | tuple hget hi hnext _ ih =>
      rw [List.cons_append, List.cons_append, dataSegments?_tuple hget, hi, Option.bind_some, hnext,
        Option.bind_some, ih, Option.map_map]
      rfl
  | list hget harr _ ih =>
      rw [List.cons_append, dataSegments?_items hget harr, ih, Option.map_map]
      rfl
  | additional hnext _ ih =>
      rw [List.cons_append, dataSegments?_additionalItems, hnext, Option.bind_some, ih,
        Option.map_map]
      rfl

theorem dataSegments?_eq_some :
    dataSegments? schema path = some data ↔ ∃ found, Leads schema path data found := by
  constructor
  · exact exists_leads
  · rintro ⟨found, h⟩
    have happend := h.append []
    rw [List.append_nil] at happend
    rw [happend, dataSegments?, Option.map_some, List.append_nil]

/-- A schema path reads off the data what a path above it reads off first. -/
theorem dataSegments?_of_prefix {whole : List String} (hbefore : above <+: path)
    (habove : dataSegments? schema above = some data)
    (hwhole : dataSegments? schema path = some whole) : data <+: whole := by
  obtain ⟨rest, rfl⟩ := hbefore
  obtain ⟨found, hfound⟩ := exists_leads habove
  rw [hfound.append] at hwhole
  obtain ⟨more, -, rfl⟩ := Option.map_eq_some_iff.mp hwhole
  exact List.prefix_append _ _

end Schema

end SchemaForm
