/-
The fields that schemas declare and the names that they require.

`Tells s fact` reads them off a schema: one step of a path for each name under an object
`properties`, the strings of a list `required`, and all that the members of a list `allOf`
tell.

`collapsing_keeps`: merged schemas tell what one of them tells, and a schema whose `allOf`
list is merged into it tells what it told before.  No names are double in the schemas, as
is promised of all values that are read.
-/
import Mathlib.Data.Set.Lattice
import SchemaForm.Proofs.Schema.Keeping

namespace SchemaForm

namespace Schema

/-- A property with its path, or a name that is required. -/
inductive Fact
  | field (path : List String)
  | required (name : String)

mutual

/-- The schema declares the field or requires the name. -/
inductive Tells : Json → Fact → Prop
  | keyword {members : Members} {key : String} {value : Json} {fact : Fact} :
      Table.get? members key = some value → Says key value fact → Tells (.obj members) fact

/-- The value of a keyword declares the field or requires the name. -/
inductive Says : String → Json → Fact → Prop
  | property {properties : Members} {name : String} {value : Json} :
      Table.get? properties name = some value → Says "properties" (.obj properties) (.field [name])
  | within {properties : Members} {name : String} {value : Json} {path : List String} :
      Table.get? properties name = some value → Tells value (.field path) →
      Says "properties" (.obj properties) (.field (name :: path))
  | required {names : List Json} {name : String} : .str name ∈ names →
      Says "required" (.arr names) (.required name)
  | part {parts : List Json} {part : Json} {fact : Fact} : part ∈ parts → Tells part fact →
      Says "allOf" (.arr parts) fact

end

/-- The paths of the fields of a schema. -/
def paths (s : Json) : Set (List String) := {path | Tells s (.field path)}

/-- The names that a schema requires. -/
def requirements (s : Json) : Set String := {name | Tells s (.required name)}

variable {a b s v old value : Json} {key : String} {fact : Fact}
  {first second made left right members : Members} {parts xs ys : List Json}

theorem tells_obj : Tells (.obj members) fact ↔
    ∃ key value, Table.get? members key = some value ∧ Says key value fact := by
  constructor
  · rintro (⟨hget, hfact⟩)
    exact ⟨_, _, hget, hfact⟩
  · rintro ⟨key, value, hget, hfact⟩
    exact .keyword hget hfact

mutual

theorem Tells.same : ∀ {a b : Json} {fact : Fact}, Tells a fact → a.same b → Tells b fact
  | _, _, _, .keyword hget hfact, h => by
      obtain ⟨ns, rfl⟩ := Json.same_obj h
      obtain ⟨w, hw, hsame⟩ := Json.same_member h hget
      exact .keyword hw (hfact.same hsame)

theorem Says.same : ∀ {key : String} {a b : Json} {fact : Fact}, Says key a fact → a.same b →
    Says key b fact
  | _, _, _, _, .property hget, h => by
      obtain ⟨ns, rfl⟩ := Json.same_obj h
      obtain ⟨w, hw, -⟩ := Json.same_member h hget
      exact .property hw
  | _, _, _, _, .within hget htells, h => by
      obtain ⟨ns, rfl⟩ := Json.same_obj h
      obtain ⟨w, hw, hsame⟩ := Json.same_member h hget
      exact .within hw (htells.same hsame)
  | _, _, _, _, .required hname, h => by
      obtain ⟨ys, rfl, hitems⟩ := Json.same_arr h
      obtain ⟨y, hy, hsame⟩ := Json.forall₂_mem hitems hname
      exact .required (Json.same_str hsame ▸ hy)
  | _, _, _, _, .part hpart htells, h => by
      obtain ⟨ys, rfl, hitems⟩ := Json.same_arr h
      obtain ⟨y, hy, hsame⟩ := Json.forall₂_mem hitems hpart
      exact .part hy (htells.same hsame)

end

/-! ## Combining -/

/-- A list tells what one of its items tells. -/
theorem says_arr (xs : List Json) :
    Says key (.arr xs) fact ↔ ∃ x ∈ xs, Says key (.arr [x]) fact := by
  constructor
  · intro h
    cases h with
    | required hname => exact ⟨_, hname, .required List.mem_cons_self⟩
    | part hpart htells => exact ⟨_, hpart, .part List.mem_cons_self htells⟩
  · rintro ⟨x, hx, h⟩
    cases h with
    | required hname => exact .required (List.mem_singleton.mp hname ▸ hx)
    | part hpart htells => exact .part (List.mem_singleton.mp hpart ▸ hx) htells

theorem says_union :
    Says key (.arr (union xs ys)) fact ↔ Says key (.arr xs) fact ∨ Says key (.arr ys) fact := by
  rw [says_arr (union xs ys), says_arr xs, says_arr ys]
  constructor
  · rintro ⟨z, hz, h⟩
    cases mem_union_iff.mp hz with
    | inl hz => exact .inl ⟨z, hz, h⟩
    | inr hz => exact .inr ⟨z, hz.1, h⟩
  · rintro (⟨x, hx, h⟩ | ⟨y, hy, h⟩)
    · exact ⟨x, mem_union_iff.mpr (.inl hx), h⟩
    · by_cases hfirst : ∃ x ∈ xs, y.same x
      · obtain ⟨x, hx, hsame⟩ := hfirst
        refine ⟨x, mem_union_iff.mpr (.inl hx), h.same ?_⟩
        simp only [Json.same, Json.sameItems, hsame, Bool.and_self]
      · exact ⟨y, mem_union_iff.mpr (.inr ⟨hy, hfirst⟩), h⟩

/-- Two values that are made one together tell what the one tells. -/
theorem says_both? {both : Json} (ho : old.Distinct) (hv : value.Distinct)
    (h : both? key old value = some both) :
    Says key both fact ↔ Says key old fact ∨ Says key value fact := by
  by_cases hsame : old.same value
  · obtain rfl : old = both := Option.some.inj ((if_pos hsame).symm.trans h)
    refine ⟨.inl, ?_⟩
    rintro (hfact | hfact)
    · exact hfact
    · exact hfact.same (Json.same_symm ho hv hsame)
  replace h : combineKeyword key old value = some both := (if_neg hsame).symm.trans h
  by_cases hkey : key = "properties" ∨ key ∈ demandKeywords
  · rcases hkey with rfl | hkey
    · rw [combineKeyword_of_not_alternative (by decide)] at h
      cases h
    · obtain ⟨xs, ys, rfl, rfl, rfl⟩ := (combineKeyword_demand hkey).mp h
      exact says_union
  · have hsilent : ∀ value, ¬Says key value fact := by
      intro value hfact
      cases hfact <;> exact hkey (by decide)
    simp only [hsilent, or_self]

theorem not_tells_isEmpty (h : a.isEmpty) : ¬Tells a fact := by
  rintro (⟨hget, -⟩)
  rw [List.isEmpty_iff.mp h] at hget
  cases hget

theorem tells_sideBySide : Tells (sideBySide a b) fact ↔ Tells a fact ∨ Tells b fact := by
  constructor
  · rintro (⟨hget, hfact⟩)
    rw [Table.get?_cons] at hget
    split at hget
    · next hkey =>
      obtain rfl := Option.some.inj hget
      cases hfact with
      | required hname => exact absurd hkey (by decide)
      | part hpart htells =>
          rcases List.mem_cons.mp hpart with rfl | hpart
          · exact .inl htells
          · exact .inr (List.mem_singleton.mp hpart ▸ htells)
    · cases hget
  · rintro (h | h)
    · exact .keyword rfl (.part List.mem_cons_self h)
    · exact .keyword rfl (.part (List.mem_cons_of_mem _ List.mem_cons_self) h)

/-- A combined schema tells what one of the two tells. -/
theorem tells_combine (ha : a.Distinct) (hb : b.Distinct) :
    Tells (combine a b) fact ↔ Tells a fact ∨ Tells b fact := by
  have hjoined := combine_joined (a := a) hb
  generalize combine a b = both at hjoined
  cases hjoined with
  | right he => rw [or_iff_right (not_tells_isEmpty he)]
  | left _ he => rw [or_iff_left (not_tells_isEmpty he)]
  | apart => exact tells_sideBySide
  | @blended first second made hea heb _ _ hmade hsome =>
      subst hea heb
      rw [tells_obj, tells_obj, tells_obj, ← exists_or]
      refine exists_congr fun key => ?_
      rw [hmade]
      cases hold : Table.get? first key with
      | none => simp [blend]
      | some old =>
          cases hvalue : Table.get? second key with
          | none => simp [blend]
          | some value =>
              obtain ⟨both, hboth⟩ := Option.isSome_iff_exists.mp (hsome key old value hold hvalue)
              simp only [blend, hboth, Option.some.injEq, exists_eq_left', says_both?
                (ha.member hold)
                (hb.member hvalue) hboth]

/-! ## Merging -/

/-- A schema merged with one that is no larger than the number tells what one of them tells. -/
def MergesTell (n : Nat) : Prop :=
  ∀ {a b : Json} {fact : Fact}, b.size ≤ n → a.Distinct → b.Distinct →
    (Tells (merge a b) fact ↔ Tells a fact ∨ Tells b fact)

/-- The property declares the field. -/
def Heads (name : String) (value : Json) (fact : Fact) : Prop :=
  fact = .field [name] ∨ ∃ path, fact = .field (name :: path) ∧ Tells value (.field path)

theorem says_properties : Says "properties" (.obj members) fact ↔
    ∃ name value, Table.get? members name = some value ∧ Heads name value fact := by
  constructor
  · generalize hk : "properties" = key
    intro h
    cases h with
    | property hget => exact ⟨_, _, hget, .inl rfl⟩
    | within hget htells => exact ⟨_, _, hget, .inr ⟨_, rfl, htells⟩⟩
  · rintro ⟨name, value, hget, rfl | ⟨path, rfl, htells⟩⟩
    · exact .property hget
    · exact .within hget htells

theorem says_mergeEntries {n : Nat} (ih : MergesTell n) (hn : Json.sizeMembers right ≤ n)
    (hl : (Json.obj left).Distinct) (hr : (Json.obj right).Distinct) :
    Says "properties" (.obj (mergeEntries left left right)) fact ↔
      Says "properties" (.obj left) fact ∨ Says "properties" (.obj right) fact := by
  rw [says_properties, says_properties, says_properties, ← exists_or]
  refine exists_congr fun name => ?_
  rw [get?_mergeEntries hr.1]
  cases hold : Table.get? left name with
  | none => simp
  | some old =>
      cases hvalue : Table.get? right name with
      | none => simp
      | some value =>
          have hsize := Json.size_le_of_get? hvalue
          have hmerged : ∀ path, Tells (merge old value) (.field path) ↔
              Tells old (.field path) ∨ Tells value (.field path) := fun path =>
            ih (by omega) (hl.member hold)
              (hr.member hvalue)
          simp only [Option.some.injEq, exists_eq_left', Heads, hmerged, and_or_left, exists_or]
          exact or_or_distrib_left

/-- What two schemas tell under a name is told under it by what merging hands on. -/
theorem says_sides {n : Nat} (ih : MergesTell n) (hn : Json.sizeMembers second ≤ n)
    (ha : (Json.obj first).Distinct) (hb : (Json.obj second).Distinct) (key : String) :
    ((∃ v, Table.get? (sides first second).1 key = some v ∧ Says key v fact) ∨
        ∃ v, Table.get? (sides first second).2 key = some v ∧ Says key v fact) ↔
      (∃ v, Table.get? first key = some v ∧ Says key v fact) ∨
        ∃ v, Table.get? second key = some v ∧ Says key v fact := by
  rw [get?_sides_left, get?_sides_right hb.1]
  cases hjoint : joint? first second key with
  | none => simp
  | some v =>
      obtain ⟨left, right, hl, hr, hv⟩ := joint?_eq_some.mp hjoint
      simp only [Option.some_or, Option.isSome_some, if_true, Option.some.injEq, exists_eq_left',
        reduceCtorEq, false_and, exists_false, or_false, hl, hr]
      by_cases hkey : key = "properties"
      · subst hkey
        obtain ⟨he, -⟩ | ⟨-, rfl⟩ := hv
        · exact absurd he (by decide)
        · have hsize := Json.size_le_of_get? hr
          rw [Json.size] at hsize
          exact says_mergeEntries ih (by omega)
            (ha.member hl)
            (hb.member hr)
      · have hkeys : key = "items" ∨ key ∈ mergedMaps := hv.imp And.left And.left
        have hsilent : ∀ value, ¬Says key value fact := by
          intro value hfact
          cases hfact
          · exact hkey rfl
          · exact hkey rfl
          · exact absurd hkeys (by decide)
          · exact absurd hkeys (by decide)
        simp only [hsilent, or_self]

theorem merges_tell (n : Nat) : MergesTell n := by
  induction n with
  | zero =>
      intro a b fact hn
      have := Json.size_pos b
      omega
  | succ n ih =>
      intro a b fact hn ha hb
      rcases merge_cases a b with ⟨-, hmerge⟩ | ⟨first, second, rfl, rfl, hmerge⟩
      · rw [hmerge]
        exact tells_combine ha hb
      · rw [Json.size] at hn
        obtain ⟨hfirst, hsecond⟩ := sides_distinct ha hb
        rw [hmerge, tells_combine hfirst hsecond, tells_obj, tells_obj, tells_obj, tells_obj,
          ← exists_or, ← exists_or]
        exact exists_congr fun key => says_sides ih (by omega) ha hb key

theorem tells_merge (ha : a.Distinct) (hb : b.Distinct) :
    Tells (merge a b) fact ↔ Tells a fact ∨ Tells b fact :=
  merges_tell _ (Nat.le_refl _) ha hb

theorem tells_mergeAll (h : ∀ x ∈ xs, x.Distinct) :
    Tells (mergeAll xs) fact ↔ ∃ x ∈ xs, Tells x fact := by
  have hfold : ∀ {acc : Json}, acc.Distinct →
      (Tells (xs.foldl merge acc) fact ↔ Tells acc fact ∨ ∃ x ∈ xs, Tells x fact) := by
    induction xs with
    | nil => simp
    | cons x xs ih =>
        intro acc hacc
        rw [List.forall_mem_cons] at h
        rw [List.foldl_cons, ih h.2 (merge_distinct hacc h.1), tells_merge hacc h.1, or_assoc,
          List.exists_mem_cons_iff]
  have hempty : ¬Tells (.obj []) fact := not_tells_isEmpty rfl
  have hnil : (Json.obj []).Distinct := ⟨List.nodup_nil, trivial⟩
  rw [mergeAll, hfold hnil, or_iff_right hempty]

/-- What a schema tells is told by its `allOf` list, or by what is beside it. -/
theorem tells_beside (hn : (Table.names members).Nodup)
    (hparts : Table.get? members "allOf" = some (.arr parts)) :
    Tells (.obj members) fact ↔
      (∃ part ∈ parts, Tells part fact) ∨ Tells (.obj (Table.swapErase members "allOf")) fact := by
  have hlist : (∃ part ∈ parts, Tells part fact) ↔ Says "allOf" (.arr parts) fact := by
    constructor
    · rintro ⟨part, hpart, htells⟩
      exact .part hpart htells
    · generalize hk : "allOf" = key
      intro h
      cases h with
      | part hpart htells => exact ⟨_, hpart, htells⟩
      | required => exact absurd hk (by decide)
  rw [hlist, tells_obj, tells_obj]
  constructor
  · rintro ⟨key, value, hget, hfact⟩
    by_cases hkey : "allOf" = key
    · subst hkey
      obtain rfl := Option.some.inj (hparts.symm.trans hget)
      exact .inl hfact
    · refine .inr ⟨key, value, ?_, hfact⟩
      rw [Table.get?_swapErase hn, if_neg hkey, hget]
  · rintro (hfact | ⟨key, value, hget, hfact⟩)
    · exact ⟨_, _, hparts, hfact⟩
    · rw [Table.get?_swapErase hn] at hget
      split at hget
      · cases hget
      · exact ⟨key, value, hget, hfact⟩

/-- Merging the members of an `allOf` list into the schema keeps what it tells. -/
theorem tells_collapseAllOf (h : s.Distinct) : Tells (collapseAllOf s) fact ↔ Tells s fact := by
  have hdistinct : ∀ {members parts}, s = .obj members →
      Table.get? members "allOf" = some (.arr parts) → ∀ part ∈ parts, part.Distinct := by
    rintro members parts rfl hparts
    exact Json.distinctItems_iff.mp (h.member hparts)
  have hcollapsed := collapsed s
  generalize collapseAllOf s = w at hcollapsed
  cases hcollapsed with
  | kept => exact Iff.rfl
  | alone he hparts hrest =>
      have hmerged : Tells (mergeAll _) fact ↔ _ := tells_mergeAll (hdistinct he hparts)
      subst he
      rw [tells_beside h.1 hparts, hrest, or_iff_left (not_tells_isEmpty rfl), hmerged]
  | beside he hparts =>
      have hmerged : Tells (mergeAll _) fact ↔ _ := tells_mergeAll (hdistinct he hparts)
      have hleft := mergeAll_distinct (hdistinct he hparts)
      subst he
      rw [tells_merge hleft (swapErase_distinct h "allOf"), tells_beside h.1 hparts, hmerged]

/-- Merged schemas have the fields and requirements that one of them has, and merging an
`allOf` list into its schema keeps the schema's. -/
theorem collapsing_keeps :
    (∀ schemas : List Json, (∀ s ∈ schemas, s.Distinct) →
      paths (mergeAll schemas) = ⋃ s ∈ schemas, paths s ∧
      requirements (mergeAll schemas) = ⋃ s ∈ schemas, requirements s) ∧
    ∀ s : Json, s.Distinct →
      paths (collapseAllOf s) = paths s ∧ requirements (collapseAllOf s) = requirements s := by
  refine ⟨fun schemas h => ⟨?_, ?_⟩, fun s h => ⟨?_, ?_⟩⟩
  · ext path
    simp only [paths, Set.mem_ofPred_eq, Set.mem_iUnion, tells_mergeAll h, exists_prop]
  · ext name
    simp only [requirements, Set.mem_ofPred_eq, Set.mem_iUnion, tells_mergeAll h, exists_prop]
  · ext path
    exact tells_collapseAllOf h
  · ext name
    exact tells_collapseAllOf h

/-- A schema with the property `a`, which it requires. -/
def demandingA : Json :=
  .obj [("properties", .obj [("a", .obj [])]), ("required", .arr [.str "a"])]

/-- The same under a list. -/
def listedA : Json := .obj [("allOf", .arr [demandingA])]

theorem collapsing_keeps_listed :
    demandingA.Distinct ∧ listedA.Distinct ∧
      ["a"] ∈ paths (mergeAll [listedA, .null]) ∧ "a" ∈ requirements (mergeAll [listedA, .null]) ∧
      ["a"] ∈ paths (collapseAllOf listedA) ∧ "a" ∈ requirements (collapseAllOf listedA) := by
  have hdemanding : demandingA.Distinct := by
    simp [demandingA, Json.Distinct, Json.DistinctItems, Json.DistinctMembers, Table.names]
  have hlisted : listedA.Distinct := by
    simp [listedA, Json.Distinct, Json.DistinctItems, Json.DistinctMembers, Table.names, hdemanding]
  have hall : ∀ s ∈ [listedA, .null], s.Distinct := by
    simp only [List.forall_mem_cons, hlisted, Json.Distinct, true_and]
    exact fun _ h => absurd h List.not_mem_nil
  have hpath : ["a"] ∈ paths listedA :=
    .keyword rfl (.part List.mem_cons_self (.keyword rfl (.property rfl)))
  have hname : "a" ∈ requirements listedA :=
    .keyword rfl (.part List.mem_cons_self (.keyword rfl (.required List.mem_cons_self)))
  obtain ⟨hpaths, hrequirements⟩ := collapsing_keeps.1 [listedA, .null] hall
  obtain ⟨hpaths', hrequirements'⟩ := collapsing_keeps.2 listedA hlisted
  refine ⟨hdemanding, hlisted, ?_, ?_, hpaths' ▸ hpath, hrequirements' ▸ hname⟩
  · rw [hpaths]
    exact Set.mem_biUnion List.mem_cons_self hpath
  · rw [hrequirements]
    exact Set.mem_biUnion List.mem_cons_self hname

end Schema

end SchemaForm
