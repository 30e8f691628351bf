/-
Titles of branches, split into groups and put together again.

An option written into the value of a title map is read back as it was (`ofJson?_toJson`).  A title
that is split at its first separator is the label of the group with the name behind it
(`flattenEntry_splitChoice`), and a title that is not split is a label of its own.  So whichever of
the two a schema's branches give, flattening it shows each branch under its title in full
(`build_oneOfTitleMap`).
-/
import SchemaForm.Proofs.Json.Equality
import SchemaForm.Proofs.Results
import SchemaForm.Proofs.TitleMap.Groups
import SchemaForm.Schema.Options

namespace SchemaForm

/-! ## Options as JSON -/

namespace TitleMap

theorem ofJson?_toJson (c : Choice) : Entry.ofJson? c.toJson = some (.choice c) := by
  obtain ⟨name, value, _ | group⟩ := c
  · rfl
  · rfl

/-- Options are their own entries where no values are listed. -/
theorem of_choicesToJson (choices : List Choice) :
    (Source.of (some (Schema.choicesToJson choices)) none).toEntries =
      choices.map Entry.choice := by
  have hread : (choices.map Choice.toJson).filterMap Entry.ofJson? = choices.map Entry.choice := by
    rw [List.filterMap_map, ← List.filterMap_eq_map]
    exact List.filterMap_congr fun c _ => ofJson?_toJson c
  exact hread

/-- A flat title map shows all options without groups. -/
theorem build_choicesToJson (choices : List Choice) :
    build (some (Schema.choicesToJson choices)) none true true =
      flatten (choices.map Entry.choice) := by
  rw [build_required, of_choicesToJson, arrange_flat]

end TitleMap

namespace Schema

open TitleMap (Choice flatten flattenEntry build)

variable {schema : Json} {branches : List Json} {titles : List String} {values : List Json}

/-! ## Splitting titles -/

/-- Nothing of a title is lost at its first separator. -/
theorem splitTitle?_eq_some {before cs group name : List Char}
    (h : splitTitle? before cs = some (group, name)) :
    before.reverse ++ cs = group ++ [':', ' '] ++ name := by
  fun_induction splitTitle? before cs with
  | case1 before rest =>
      obtain ⟨rfl, rfl⟩ := Prod.mk.inj (Option.some.inj h)
      simp
  | case2 before c rest _ ih =>
      rw [← ih h, List.reverse_cons, List.append_assoc, List.singleton_append]
  | case3 before => cases h

/-- A split option is flattened to the option with its title in full. -/
theorem flattenEntry_splitChoice (name : String) (value : Json) :
    flattenEntry (.choice (splitChoice (.plain name value))) = [TitleMap.option name value] := by
  unfold splitChoice
  split
  · next group rest hsplit =>
      have hjoined := splitTitle?_eq_some hsplit
      split
      · have hname : TitleMap.groupedName (.ofList group) (.ofList rest) = name := by
          rw [← String.toList_inj]
          simp only [TitleMap.groupedName, String.toList_append, String.toList_ofList]
          exact hjoined.symm
        rw [flattenEntry, hname]
        rfl
      · rfl
  · rfl

/-- Only the first separator divides a title. -/
example : splitChoice (.plain "a: b: c" .null) = ⟨"b: c", .null, some "a"⟩ := rfl

/-! ## Branches -/

/-- The branches fix the values: by lists of one value if all have such a list, and by constants
other than null if not. -/
def Fixes (branches values : List Json) : Prop :=
  List.Forall₂ (fun branch value => branch.get? "enum" = some (.arr [value])) branches values ∨
    (∃ branch ∈ branches, ∀ value, branch.get? "enum" ≠ some (.arr [value])) ∧
      List.Forall₂ (fun branch value => branch.get? "const" = some value ∧ value.isNull = false)
        branches values

/-- The branches of a schema with their titles, none of which is empty, and the values that they
fix. -/
structure Labelled (schema : Json) (branches : List Json) (titles : List String)
    (values : List Json) : Prop where
  listed : schema.get? "oneOf" = some (.arr branches)
  nonempty : branches ≠ []
  titled : List.Forall₂ (fun branch title => branch.get? "title" = some (.str title) ∧ title ≠ "")
    branches titles
  fixed : Fixes branches values

/-- Branches fix one list of values. -/
theorem Fixes.unique {values' : List Json} (h : Fixes branches values)
    (h' : Fixes branches values') : values' = values := by
  have hone : ∀ {values : List Json} {branch : Json},
      List.Forall₂ (fun branch value => branch.get? "enum" = some (.arr [value])) branches values →
      branch ∈ branches → ¬∀ value, branch.get? "enum" ≠ some (.arr [value]) := by
    intro values branch hall hbranch hnone
    obtain ⟨value, -, hvalue⟩ := Json.forall₂_mem hall hbranch
    exact hnone value hvalue
  rcases h with hsingle | ⟨⟨branch, hbranch, hnone⟩, hconstant⟩ <;>
    rcases h' with hsingle' | ⟨⟨branch', hbranch', hnone'⟩, hconstant'⟩
  · refine List.right_unique_forall₂' (fun _ _ _ ha hb => ?_) hsingle' hsingle
    exact List.head_eq_of_cons_eq (Json.arr.inj (Option.some.inj (ha.symm.trans hb)))
  · exact absurd hnone' (hone hsingle hbranch')
  · exact absurd hnone (hone hsingle' hbranch)
  · refine List.right_unique_forall₂' (fun _ _ _ ha hb => ?_) hconstant' hconstant
    exact Option.some.inj (ha.1.symm.trans hb.1)

/-- So a schema has one list of titles and one of values. -/
theorem Labelled.unique {branches' : List Json} {titles' : List String} {values' : List Json}
    (h : Labelled schema branches titles values) (h' : Labelled schema branches' titles' values') :
    titles' = titles ∧ values' = values := by
  obtain rfl := Json.arr.inj (Option.some.inj (h.listed.symm.trans h'.listed))
  refine ⟨List.right_unique_forall₂' (fun _ _ _ ha hb => ?_) h'.titled h.titled,
    h.fixed.unique h'.fixed⟩
  exact Json.str.inj (Option.some.inj (ha.1.symm.trans hb.1))

theorem branchTitle?_eq_some {branch : Json} {title : String} :
    branchTitle? branch = some title ↔ branch.get? "title" = some (.str title) ∧ title ≠ "" := by
  rw [branchTitle?, Option.filter_eq_some_iff, Option.bind_eq_some_iff]
  constructor
  · rintro ⟨⟨found, hfound, hstr⟩, hne⟩
    cases found with
    | str text =>
        obtain rfl := Option.some.inj hstr
        exact ⟨hfound, of_decide_eq_true hne⟩
    | _ => cases hstr
  · rintro ⟨hfound, hne⟩
    exact ⟨⟨_, hfound, rfl⟩, decide_eq_true hne⟩

theorem singleValue?_eq_some {branch value : Json} :
    singleValue? branch = some value ↔ branch.get? "enum" = some (.arr [value]) := by
  unfold singleValue?
  split
  · next single hsingle => simp [hsingle]
  · next hnone =>
      constructor
      · intro h
        cases h
      · intro h
        exact absurd h (hnone value)

theorem constant?_eq_some {branch value : Json} :
    constant? branch = some value ↔ branch.get? "const" = some value ∧ value.isNull = false := by
  rw [constant?, Option.filter_eq_some_iff, Bool.not_eq_true']

theorem fixes_of_values
    (h : (branches.mapM singleValue?).or (branches.mapM constant?) = some values) :
    Fixes branches values := by
  rcases Option.or_eq_some_iff.mp h with hsingle | ⟨hnone, hconstant⟩
  · exact .inl ((forall₂_of_mapM hsingle).imp fun _ _ => singleValue?_eq_some.mp)
  · refine .inr ⟨?_, (forall₂_of_mapM hconstant).imp fun _ _ => constant?_eq_some.mp⟩
    have hnot : ¬∀ branch ∈ branches, (singleValue? branch).isSome = true := by
      rw [← isSome_mapM, hnone]
      exact Bool.false_ne_true
    obtain ⟨branch, hbranch⟩ := not_forall.mp hnot
    obtain ⟨hmem, hfails⟩ := Classical.not_imp.mp hbranch
    refine ⟨branch, hmem, fun value hvalue => hfails ?_⟩
    rw [singleValue?_eq_some.mpr hvalue]
    rfl

theorem labelled_of_choices {choices : List Choice} (h : oneOfChoices? schema = some choices) :
    ∃ branches titles values, Labelled schema branches titles values ∧
      choices = List.zipWith Choice.plain titles values := by
  obtain ⟨branches, hbranches, h⟩ := Option.bind_eq_some_iff.mp h
  obtain ⟨found, hfound, harr⟩ := Option.bind_eq_some_iff.mp hbranches
  have hlisted : schema.get? "oneOf" = some (.arr branches) := by
    cases found with
    | arr items =>
        obtain rfl := Option.some.inj harr
        exact hfound
    | _ => cases harr
  dsimp only at h
  split at h
  · cases h
  · next hnonempty =>
      obtain ⟨titles, htitles, h⟩ := Option.bind_eq_some_iff.mp h
      obtain ⟨values, hvalues, h⟩ := Option.bind_eq_some_iff.mp h
      refine ⟨branches, titles, values, ⟨hlisted, ?_, ?_, fixes_of_values hvalues⟩,
        (Option.some.inj h).symm⟩
      · rintro rfl
        exact hnonempty rfl
      · exact (forall₂_of_mapM htitles).imp fun _ _ => branchTitle?_eq_some.mp

/-! ## Title maps of branches -/

/-- Without a wish to split them or with too few groups, titles stay in full. -/
theorem oneOfTitleMap?_cases {choices : List Choice} (h : oneOfChoices? schema = some choices)
    (flat : Option Bool) : oneOfTitleMap? schema flat = some choices ∨
      oneOfTitleMap? schema flat = some (choices.map splitChoice) := by
  rw [oneOfTitleMap?, h, Option.map_some]
  dsimp only
  split
  · exact .inl rfl
  · split
    · exact .inr rfl
    · exact .inl rfl

/-- Options are flattened one by one. -/
theorem flatten_choices {f : Choice → Choice} (hf : ∀ name value,
    flattenEntry (.choice (f (.plain name value))) = [TitleMap.option name value])
    (titles : List String) (values : List Json) :
    flatten (((List.zipWith Choice.plain titles values).map f).map TitleMap.Entry.choice) =
      List.zipWith TitleMap.option titles values := by
  rw [flatten, List.map_map, List.flatMap_map]
  induction titles generalizing values with
  | nil => rfl
  | cons title titles ih =>
      cases values with
      | nil => rfl
      | cons value values =>
          rw [List.zipWith_cons_cons, List.zipWith_cons_cons, List.flatMap_cons, ih]
          exact congrArg (· ++ _) (hf title value)

/-- **Splitting titles loses nothing.**  For every schema whose branches qualify and every wish for
a flat list, the branches give a title map, and the flat options built from it are the titles in
full with the values of the branches, in their order and without groups. -/
theorem build_oneOfTitleMap (schema : Json) (h : hasOneOfChoices schema = true) :
    ∃ branches titles values, Labelled schema branches titles values ∧
      ∀ flat, ∃ choices, oneOfTitleMap? schema flat = some choices ∧
        build (some (choicesToJson choices)) none true true =
          List.zipWith TitleMap.option titles values := by
  obtain ⟨full, hfull⟩ := Option.isSome_iff_exists.mp h
  obtain ⟨branches, titles, values, hlabelled, rfl⟩ := labelled_of_choices hfull
  refine ⟨branches, titles, values, hlabelled, fun flat => ?_⟩
  rcases oneOfTitleMap?_cases hfull flat with hmap | hmap
  · refine ⟨_, hmap, ?_⟩
    rw [TitleMap.build_choicesToJson, ← List.map_id (List.zipWith Choice.plain titles values)]
    exact flatten_choices (fun _ _ => rfl) titles values
  · refine ⟨_, hmap, ?_⟩
    rw [TitleMap.build_choicesToJson]
    exact flatten_choices flattenEntry_splitChoice titles values

/-- Titles with two separators, with nothing in front of one and with nothing behind one. -/
theorem build_oneOfTitleMap_fruit :
    let schema := Json.obj [("oneOf", .arr [
      .obj [("title", .str "Fruit: Citrus: Lime"), ("const", .str "lime")],
      .obj [("title", .str "Fruit: Apple"), ("const", .str "apple")],
      .obj [("title", .str ": Leek"), ("const", .str "leek")],
      .obj [("title", .str "None: "), ("const", .bool false)]])]
    hasOneOfChoices schema = true ∧
      ∀ flat, ∃ choices, oneOfTitleMap? schema flat = some choices ∧
        build (some (choicesToJson choices)) none true true =
          [TitleMap.option "Fruit: Citrus: Lime" (.str "lime"),
            TitleMap.option "Fruit: Apple" (.str "apple"),
            TitleMap.option ": Leek" (.str "leek"), TitleMap.option "None: " (.bool false)] := by
  intro schema
  refine ⟨rfl, ?_⟩
  obtain ⟨branches, titles, values, hlabelled, hbuild⟩ := build_oneOfTitleMap schema rfl
  have hgiven : Labelled schema
      [.obj [("title", .str "Fruit: Citrus: Lime"), ("const", .str "lime")],
        .obj [("title", .str "Fruit: Apple"), ("const", .str "apple")],
        .obj [("title", .str ": Leek"), ("const", .str "leek")],
        .obj [("title", .str "None: "), ("const", .bool false)]]
      ["Fruit: Citrus: Lime", "Fruit: Apple", ": Leek", "None: "]
      [.str "lime", .str "apple", .str "leek", .bool false] := by
    refine ⟨rfl, List.cons_ne_nil _ _, ?_, .inr ⟨⟨_, List.mem_cons_self, ?_⟩, ?_⟩⟩
    · exact .cons ⟨rfl, by decide⟩ (.cons ⟨rfl, by decide⟩ (.cons ⟨rfl, by decide⟩
        (.cons ⟨rfl, by decide⟩ .nil)))
    · intro value hvalue
      cases hvalue
    · exact .cons ⟨rfl, rfl⟩ (.cons ⟨rfl, rfl⟩ (.cons ⟨rfl, rfl⟩ (.cons ⟨rfl, rfl⟩ .nil)))
  obtain ⟨rfl, rfl⟩ := hgiven.unique hlabelled
  exact hbuild

end Schema

end SchemaForm
