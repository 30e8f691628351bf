/-
Which source an option has its value from.

Options are gathered from seven sources (`precedence`), and each source may give an option under
several keys, with and without the prefix.  The option has the value of the strongest source that
gives one (`option_from_strongest`).  What follows from the gathered options fills gaps only, so an
option of the node itself is kept, with one exception: suggestions are written over it
(`own_kept_iff`).
-/
import SchemaForm.Proofs.Schema.Options
import SchemaForm.Proofs.Table

namespace SchemaForm

namespace Schema

variable {own : Members} {schema : Json} {defaults : Members} {options : Members}
  {key name : String} {value : Json}

/-! ## Prefixes -/

/-- The key starts with `ui:`, in any case of letters. -/
def Prefixed (key : String) : Prop :=
  ∃ u i rest, key.toList = u :: i :: ':' :: rest ∧ u.toLower = 'u' ∧ i.toLower = 'i'

/-- The name of an option is its key without one prefix. -/
theorem optionName_eq_iff : optionName key = name ↔
    (Prefixed key ∧ key.toList.drop 3 = name.toList) ∨ (¬Prefixed key ∧ key = name) := by
  unfold optionName
  split
  · next u i c rest hkey =>
      by_cases hmark : u.toLower = 'u' ∧ i.toLower = 'i' ∧ c = ':'
      · obtain ⟨hu, hi, rfl⟩ := hmark
        have hprefixed : Prefixed key := ⟨u, i, rest, hkey, hu, hi⟩
        rw [if_pos ⟨hu, hi, rfl⟩, hkey]
        simp only [hprefixed, not_true_eq_false, false_and, or_false, true_and, List.drop_succ_cons,
          List.drop_zero]
        rw [← String.toList_inj, String.toList_ofList]
      · have hplain : ¬Prefixed key := by
          rintro ⟨u', i', rest', hkey', hu, hi⟩
          obtain ⟨rfl, rfl, rfl, rfl⟩ : u = u' ∧ i = i' ∧ c = ':' ∧ rest = rest' := by
            simpa only [List.cons.injEq] using hkey.symm.trans hkey'
          exact hmark ⟨hu, hi, rfl⟩
        rw [if_neg hmark]
        simp only [hplain, false_and, not_false_eq_true, true_and, false_or]
  · next hshort =>
      have hplain : ¬Prefixed key := by
        rintro ⟨u, i, rest, hkey, -, -⟩
        exact hshort _ _ _ _ hkey
      simp only [hplain, false_and, not_false_eq_true, true_and, false_or]

theorem optionName_eq_self_iff : optionName key = key ↔ ¬Prefixed key := by
  rw [optionName_eq_iff]
  constructor
  · rintro (⟨⟨u, i, rest, hkey, -, -⟩, hdrop⟩ | ⟨hplain, -⟩)
    · have hlength := congrArg List.length hdrop
      rw [hkey] at hlength
      simp only [List.drop_succ_cons, List.drop_zero, List.length_cons] at hlength
      omega
    · exact hplain
  · intro hplain
    exact .inr ⟨hplain, rfl⟩

instance : Decidable (Prefixed key) :=
  decidable_of_iff (optionName key ≠ key) (not_congr optionName_eq_self_iff |>.trans not_not)

/-! ## Precedence -/

/-- The sources of options, the strongest first, each with the keys that it leaves out. -/
def precedence (schema : Json) (defaults own : Members) : List (List String × Members) := [
  ([], own),
  (["items", "options"], objectAt schema ["x-schema-form"]),
  ([], objectAt schema ["x-schema-form", "options"]),
  (structuralKeywords, objectAt schema []),
  ([], objectAt schema ["ui:widget"]),
  ([], objectAt schema ["ui:widget", "options"]),
  ([], defaults)]

/-- Sources that are written one over the other. -/
theorem get?_foldl_layer (sources : List (List String × Members)) (options : Members)
    (name : String) :
    Table.get? (sources.foldl (fun acc (skip, source) => layer skip acc source) options) name =
      (sources.reverse.findSome? (given? name)).or (Table.get? options name) := by
  induction sources generalizing options with
  | nil => rfl
  | cons source rest ih =>
      obtain ⟨skip, source⟩ := source
      rw [List.foldl_cons, ih, get?_layer, List.reverse_cons, List.findSome?_append,
        Option.or_assoc, List.findSome?_singleton]

theorem get?_layered (schema : Json) (defaults own : Members) (name : String) :
    Table.get? (layered schema defaults own) name =
      (precedence schema defaults own).findSome? (given? name) := by
  have hsources : (optionSources schema defaults own).reverse =
      precedence schema defaults own := rfl
  rw [layered, get?_foldl_layer, hsources, Table.get?_nil, Option.or_none]

/-- **The strongest source wins.**  Whatever the schema, the form's defaults and the options of the
node are, an option that does not follow from others has the value of the strongest source that
gives it one other than null, and is absent if none does. -/
theorem option_from_strongest (own : Members) (schema : Json) (defaults : Members)
    (hname : name ∉ derivedKeys) :
    Table.get? (updateOptions own schema defaults) name =
      (precedence schema defaults own).findSome? (given? name) := by
  rw [get?_updateOptions_layered _ _ _ hname, get?_layered]

/-- An annotation that has the option twice: its last key counts, over the keyword of the schema.
The null of the node counts for nothing. -/
theorem option_from_strongest_annotation :
    "help" ∉ derivedKeys ∧
      Table.get? (updateOptions [("help", .null)]
        (.obj [("help", .str "keyword"), ("x-schema-form", .obj [("help", .str "first"),
          ("UI:help", .str "last"), ("options", .obj [("help", .str "inner")])])])
        [("ui:help", .str "default")]) "help" = some (.str "last") :=
  ⟨by decide, option_from_strongest _ _ _ (by decide)⟩

/-! ## Own options -/

theorem has_of_get? (h : Table.get? options key = some value) : Table.has options key = true := by
  rw [Table.has, h]
  rfl

theorem get?_withStep_of_some (h : Table.get? options key = some value)
    (hvalue : value.isNull = false) : Table.get? (withStep schema options) key = some value := by
  by_cases hkey : key = "multipleOf"
  · subst hkey
    have hstep : (Table.get? options "multipleOf").all Json.isNull = false := by
      rw [h, Option.all_some, hvalue]
    rw [withStep, hstep, Bool.and_false, if_neg Bool.false_ne_true, h]
  · rw [get?_withStep hkey, h]

/-- Only gaps are filled. -/
theorem get?_filled_of_some (h : Table.get? options key = some value)
    (hvalue : value.isNull = false) : Table.get? (filled schema options) key = some value := by
  refine get?_withStep_of_some ?_ hvalue
  split
  · exact h
  · next hgap =>
      have htitles : key ≠ "titleMap" := by
        rintro rfl
        exact hgap (has_of_get? h)
      have henum : key = "enum" → Table.has options "enum" = true := by
        rintro rfl
        exact has_of_get? h
      rw [get?_withTitleMap htitles henum, h]

/-- A source gives an option where a key that it does not leave out names it. -/
theorem given?_isSome_iff {skip : List String} {source : Members} :
    (given? name (skip, source)).isSome = true ↔ ∃ entry ∈ source,
      entry.2.isNull = false ∧ entry.1 ∉ skip ∧ optionName entry.1 = name := by
  rw [given?, Option.isSome_map, List.getLast?_isSome, Ne, List.filter_eq_nil_iff]
  simp only [not_forall, not_not, exists_prop, Bool.and_eq_true, Bool.not_eq_true',
    Bool.or_eq_false_iff, List.contains_eq_mem, decide_eq_false_iff_not, beq_iff_eq, and_assoc]

theorem given?_eq_none {source : List String × Members}
    (h : ∀ entry ∈ source.2, optionName entry.1 ≠ name) : given? name source = none := by
  rw [given?, Option.map_eq_none_iff, List.getLast?_eq_none_iff, List.filter_eq_nil_iff]
  intro entry hentry
  simp only [Bool.and_eq_true, beq_iff_eq, not_and]
  exact fun _ => h entry hentry

/-- What the node itself gives to an option, where no key has the prefix. -/
theorem given?_own (hnames : (Table.names own).Nodup)
    (hplain : ∀ key ∈ Table.names own, ¬Prefixed key) (hown : Table.get? own name = some value)
    (hvalue : value.isNull = false) : given? name ([], own) = some value := by
  induction own with
  | nil => cases hown
  | cons entry rest ih =>
      obtain ⟨key, first⟩ := entry
      obtain ⟨hnot, hrest⟩ := List.nodup_cons.mp hnames
      have hself : ∀ key' ∈ Table.names ((key, first) :: rest), optionName key' = key' :=
        fun key' hkey' => optionName_eq_self_iff.mpr (hplain key' hkey')
      obtain ⟨hkey, hkeys⟩ := List.forall_mem_cons.mp hself
      rw [given?_cons, hkey]
      rw [Table.get?_cons] at hown
      split at hown
      · next hsame =>
          subst hsame
          obtain rfl := Option.some.inj hown
          -- no later key names the option, so the first one is the last
          have hlater : given? key ([], rest) = none := by
            refine given?_eq_none fun entry hentry hname => ?_
            have hmem : entry.1 ∈ Table.names rest := List.mem_map_of_mem hentry
            exact hnot ((hkeys _ hmem).symm.trans hname ▸ hmem)
          rw [hlater, Option.none_or, if_pos ⟨by rw [hvalue]; rfl, rfl⟩]
      · rw [ih hrest (List.forall_mem_cons.mp hplain).2 hown, Option.some_or]

/-- The strongest source is the node itself. -/
theorem get?_layered_own (schema : Json) (defaults : Members) (hnames : (Table.names own).Nodup)
    (hplain : ∀ key ∈ Table.names own, ¬Prefixed key) (hown : Table.get? own key = some value)
    (hvalue : value.isNull = false) :
    Table.get? (layered schema defaults own) key = some value := by
  rw [get?_layered, precedence, List.findSome?_cons, given?_own hnames hplain hown hvalue]

/-- An own option afterwards: what it was, but for suggestions. -/
theorem get?_updateOptions_own (schema : Json) (defaults : Members)
    (hnames : (Table.names own).Nodup) (hplain : ∀ key ∈ Table.names own, ¬Prefixed key)
    (hown : Table.get? own key = some value) (hvalue : value.isNull = false) :
    Table.get? (updateOptions own schema defaults) key =
      if key = "typeahead" then (suggestions? (layered schema defaults own)).or (some value)
      else some value := by
  have hlayered := get?_layered_own schema defaults hnames hplain hown hvalue
  have hsuggestions : suggestions? (filled schema (layered schema defaults own)) =
      suggestions? (layered schema defaults own) :=
    suggestions?_congr (get?_filled (by decide) (by decide) (by decide))
      (get?_filled (by decide) (by decide) (by decide))
  rw [updateOptions_eq, get?_withTypeahead, get?_filled_of_some hlayered hvalue, hsuggestions]

/-- **Own options are kept, but for suggestions.**  Whatever the schema and the form's defaults are,
an option that the node has, other than null, is the same afterwards if and only if it is not
`typeahead` or the gathered options have no other suggestions.  No key of the node has the
prefix. -/
theorem own_kept_iff (schema : Json) (defaults : Members) (hnames : (Table.names own).Nodup)
    (hplain : ∀ key ∈ Table.names own, ¬Prefixed key) (hown : Table.get? own key = some value)
    (hvalue : value.isNull = false) :
    Table.get? (updateOptions own schema defaults) key = some value ↔
      (key = "typeahead" →
        ∀ suggestions ∈ suggestions? (layered schema defaults own), suggestions = value) := by
  rw [get?_updateOptions_own schema defaults hnames hplain hown hvalue]
  by_cases hkey : key = "typeahead"
  · rw [if_pos hkey]
    cases suggestions? (layered schema defaults own) with
    | none => simp
    | some suggestions => simp [hkey]
  · simp [hkey]

/-- A node with listed values of its own; its items list others and its schema has suggestions. -/
theorem own_kept_iff_listed :
    (∀ key ∈ Table.names [("enum", Json.strs ["a"])], ¬Prefixed key) ∧
      Table.get? (updateOptions [("enum", .strs ["a"])]
        (.obj [("items", .obj [("enum", .strs ["b"])]),
          ("autocomplete", .obj [("source", .strs ["c"])])]) []) "enum" = some (.strs ["a"]) :=
  ⟨by decide, (own_kept_iff _ _ (by decide) (by decide) rfl rfl).mpr fun h => absurd h (by decide)⟩

/-- Suggestions of the schema take the place of those of the node. -/
theorem not_own_kept :
    ¬∀ (own : Members) (schema : Json) (defaults : Members) (key : String) (value : Json),
      (Table.names own).Nodup → (∀ name ∈ Table.names own, ¬Prefixed name) →
      Table.get? own key = some value → value.isNull = false →
      Table.get? (updateOptions own schema defaults) key = some value := by
  intro h
  have hkept := h [("typeahead", .obj [("source", .strs ["a"])])]
    (.obj [("autocomplete", .obj [("source", .strs ["b"])])]) [] "typeahead" _
    (by decide) (by decide) rfl rfl
  have hcopied : Table.get? (updateOptions [("typeahead", .obj [("source", .strs ["a"])])]
      (.obj [("autocomplete", .obj [("source", .strs ["b"])])]) []) "typeahead" =
      some (.obj [("source", .strs ["b"])]) := rfl
  rw [hcopied] at hkept
  simp [Json.strs] at hkept

end Schema

end SchemaForm
