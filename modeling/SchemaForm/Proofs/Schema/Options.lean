/-
Options that a control has of its own.

Each layer of options gives an option its last value (`get?_layer`).  The own options of a control
are the last of the layers, and what follows from all of them goes to keys of its own
(`derivedKeys`).  So an own option under any other key stays what it is, whatever the schema says
(`get?_updateOptions`), and where the schema gives no title, one among the own options changes
nothing else (`updateOptions_titled`).
-/
import Mathlib.Data.List.Find
import SchemaForm.Schema.Options

namespace SchemaForm

namespace Schema

variable {options : Members} {schema : Json} {key : String} {value : Json}

/-! ## Options that follow from others -/

/-- The keys of options that follow from others. -/
def derivedKeys : List String := ["titleMap", "enum", "multipleOf", "typeahead"]

theorem get?_insert_of_ne {written : String} (hne : key ≠ written) (value : Json) :
    Table.get? (Table.insert options written value) key = Table.get? options key := by
  rw [Table.get?_insert, if_neg hne.symm]

theorem get?_withItemTitles (items : Json) (flat : Option Bool) (htitles : key ≠ "titleMap")
    (henum : key ≠ "enum") :
    Table.get? (withItemTitles items flat options) key = Table.get? options key := by
  simp only [withItemTitles]
  split
  · exact get?_insert_of_ne htitles _
  · split
    · rw [get?_insert_of_ne htitles, get?_insert_of_ne henum]
    · exact get?_insert_of_ne henum _
  · split
    · exact get?_insert_of_ne htitles _
    · rfl

/-- Listed values are taken from the item schema only where there are none. -/
theorem get?_withTitleMap (htitles : key ≠ "titleMap")
    (henum : key = "enum" → Table.has options "enum" = true) :
    Table.get? (withTitleMap schema options) key = Table.get? options key := by
  simp only [withTitleMap]
  split
  · exact get?_insert_of_ne htitles _
  · split
    · split
      · exact get?_insert_of_ne htitles _
      · rfl
    · next hlisted =>
        split
        · exact get?_withItemTitles _ _ htitles fun he => hlisted (henum he)
        · rfl

theorem get?_withStep (hkey : key ≠ "multipleOf") :
    Table.get? (withStep schema options) key = Table.get? options key := by
  unfold withStep
  split
  · exact get?_insert_of_ne hkey _
  · rfl

/-- Options with their gaps filled by a title map, listed values and a step. -/
def filled (schema : Json) (options : Members) : Members :=
  withStep schema (if Table.has options "titleMap" then options else withTitleMap schema options)

theorem get?_filled (htitles : key ≠ "titleMap") (henum : key ≠ "enum")
    (hstep : key ≠ "multipleOf") :
    Table.get? (filled schema options) key = Table.get? options key := by
  rw [filled, get?_withStep hstep]
  split
  · rfl
  · exact get?_withTitleMap htitles fun he => absurd he henum

/-- The strongest place of suggestions that has a source. -/
def suggestionPlace? (options : Members) : Option (List String) :=
  suggestionPlaces.find? fun place => ((Json.obj options).follow? (place ++ ["source"])).isSome

/-- The suggestions among options, if one of their places has a source. -/
def suggestions? (options : Members) : Option Json :=
  (suggestionPlace? options).bind (Json.obj options).follow?

theorem withTypeahead_eq (options : Members) : withTypeahead options =
    ((suggestions? options).map (Table.insert options "typeahead")).getD options := by
  unfold withTypeahead
  dsimp only
  rw [← suggestionPlace?, ← suggestions?]
  cases suggestions? options <;> rfl

/-- Suggestions are written over what is there. -/
theorem get?_withTypeahead (options : Members) (key : String) :
    Table.get? (withTypeahead options) key =
      if key = "typeahead" then (suggestions? options).or (Table.get? options key)
      else Table.get? options key := by
  rw [withTypeahead_eq]
  cases suggestions? options with
  | none => simp
  | some suggestions =>
      rw [Option.map_some, Option.getD_some, Table.get?_insert]
      by_cases hkey : key = "typeahead"
      · rw [if_pos hkey.symm, if_pos hkey]
        rfl
      · rw [if_neg (Ne.symm hkey), if_neg hkey]

/-- Suggestions stand under two keys. -/
theorem suggestions?_congr {options' : Members}
    (hauto : Table.get? options' "autocomplete" = Table.get? options "autocomplete")
    (htags : Table.get? options' "tagsinput" = Table.get? options "tagsinput") :
    suggestions? options' = suggestions? options := by
  have hplaces : ∀ place ∈ suggestionPlaces, ∀ rest,
      (Json.obj options').follow? (place ++ rest) = (Json.obj options).follow? (place ++ rest) := by
    simp only [suggestionPlaces, List.forall_mem_cons, List.cons_append, List.nil_append,
      Json.follow?, Json.step?, hauto, htags, implies_true, List.not_mem_nil, false_imp_iff,
      and_self]
  have hplace : suggestionPlace? options' = suggestionPlace? options := by
    refine List.find?_congr fun place hmem => ?_
    rw [hplaces place hmem]
  rw [suggestions?, suggestions?, hplace]
  cases hfound : suggestionPlace? options with
  | none => rfl
  | some place =>
      have hsame := hplaces place (List.mem_of_find?_eq_some hfound) []
      rwa [List.append_nil] at hsame

theorem updateOptions_eq (own : Members) (schema : Json) (defaults : Members) :
    updateOptions own schema defaults =
      withTypeahead (filled schema (layered schema defaults own)) := rfl

/-- Options that do not follow from others are those of the layers. -/
theorem get?_updateOptions_layered (own : Members) (schema : Json) (defaults : Members)
    (hkey : key ∉ derivedKeys) :
    Table.get? (updateOptions own schema defaults) key =
      Table.get? (layered schema defaults own) key := by
  simp only [derivedKeys, List.mem_cons, not_or] at hkey
  obtain ⟨htitles, henum, hstep, htypeahead, -⟩ := hkey
  rw [updateOptions_eq, get?_withTypeahead, if_neg htypeahead, get?_filled htitles henum hstep]

/-! ## Layers -/

/-- What a source, with the keys that it leaves out, gives to an option: the last value other than
null under a key that names the option. -/
def given? (name : String) (source : List String × Members) : Option Json :=
  (source.2.filter fun entry =>
    !(entry.2.isNull || source.1.contains entry.1) && optionName entry.1 == name).getLast?.map
      Prod.snd

variable {skip : List String} {own : Members}

theorem layer_cons (skip : List String) (options : Members) (key : String) (value : Json)
    (rest : Members) : layer skip options ((key, value) :: rest) =
      layer skip (if value.isNull || skip.contains key then options
        else Table.insert options (optionName key) value) rest := rfl

/-- The first entry of a source counts where the others give nothing. -/
theorem given?_cons (name : String) (skip : List String) (key : String) (value : Json)
    (rest : Members) : given? name (skip, (key, value) :: rest) =
      (given? name (skip, rest)).or
        (if (value.isNull || skip.contains key) = false ∧ optionName key = name then some value
          else none) := by
  unfold given?
  dsimp only
  rw [List.filter_cons]
  by_cases h : (value.isNull || skip.contains key) = false ∧ optionName key = name
  · rw [if_pos h, h.1, h.2, beq_self_eq_true]
    simp only [Bool.not_false, Bool.and_self, if_true, List.getLast?_cons]
    cases (rest.filter _).getLast? <;> rfl
  · have hskip : (!(value.isNull || skip.contains key) && optionName key == name) = false := by
      rw [Bool.eq_false_iff]
      simpa only [ne_eq, Bool.and_eq_true, Bool.not_eq_true', beq_iff_eq] using h
    rw [if_neg h, if_neg (Bool.eq_false_iff.mp hskip), Option.or_none]

/-- An option after a layer: what the layer gives to it, and else what it was. -/
theorem get?_layer (skip : List String) (options source : Members) (name : String) :
    Table.get? (layer skip options source) name =
      (given? name (skip, source)).or (Table.get? options name) := by
  induction source generalizing options with
  | nil => rfl
  | cons entry rest ih =>
      obtain ⟨key, value⟩ := entry
      rw [layer_cons, ih, given?_cons, Option.or_assoc]
      congr 1
      cases hskip : value.isNull || skip.contains key with
      | true => rfl
      | false =>
          rw [if_neg Bool.false_ne_true, Table.get?_insert]
          by_cases hname : optionName key = name
          · rw [if_pos hname, if_pos ⟨rfl, hname⟩]
            rfl
          · rw [if_neg hname, if_neg fun h => hname h.2]
            rfl

/-- The options of a node itself come last. -/
theorem layered_own (schema : Json) (defaults own : Members) :
    layered schema defaults own = layer [] (layered schema defaults []) own := rfl

/-- **Own options stay.** -/
theorem get?_updateOptions (schema : Json) (defaults : Members) (hname : optionName key = key)
    (hvalue : value.isNull = false) (hkey : key ∉ derivedKeys) :
    Table.get? (updateOptions [(key, value)] schema defaults) key = some value := by
  rw [get?_updateOptions_layered _ _ _ hkey, layered_own, get?_layer, given?_cons,
    if_pos ⟨by rw [hvalue]; rfl, hname⟩]
  rfl

/-- An own option changes no option of another name. -/
theorem get?_updateOptions_other (schema : Json) (defaults : Members) {name : String}
    (hname : optionName name = name) (hne : name ≠ key) (hkey : key ∉ derivedKeys) :
    Table.get? (updateOptions [(name, value)] schema defaults) key =
      Table.get? (updateOptions [] schema defaults) key := by
  rw [get?_updateOptions_layered _ _ _ hkey, get?_updateOptions_layered _ _ _ hkey, layered_own,
    get?_layer, given?_cons, if_neg fun hgiven => hne (hname.symm.trans hgiven.2)]
  rfl

/-! ## A title among the own options -/

variable {options' : Members} {title : Json}

/-- The second options are the first ones with the title. -/
def Titled (title : Json) (options options' : Members) : Prop :=
  ∀ key, Table.get? options' key = if "title" = key then some title else Table.get? options key

theorem titled_insert (title : Json) (options : Members) :
    Titled title options (Table.insert options "title" title) := Table.get?_insert options _ _

namespace Titled

theorem get? (h : Titled title options options') (hkey : "title" ≠ key) :
    Table.get? options' key = Table.get? options key := by
  rw [h key, if_neg hkey]

theorem has (h : Titled title options options') (hkey : "title" ≠ key) :
    Table.has options' key = Table.has options key := by
  rw [Table.has, Table.has, h.get? hkey]

theorem insert (h : Titled title options options') (hkey : key ≠ "title") (value : Json) :
    Titled title (Table.insert options key value) (Table.insert options' key value) := by
  intro other
  rw [Table.get?_insert, Table.get?_insert, h other]
  by_cases he : key = other
  · rw [if_pos he, if_pos he, if_neg fun ht => hkey (he.trans ht.symm)]
  · rw [if_neg he, if_neg he]

theorem withItemTitles (h : Titled title options options') (items : Json) (flat : Option Bool) :
    Titled title (withItemTitles items flat options) (withItemTitles items flat options') := by
  unfold Schema.withItemTitles
  split
  · exact h.insert (by decide) _
  · next values _ _ =>
      have henum : Titled title (Table.insert options "enum" values)
          (Table.insert options' "enum" values) := h.insert (by decide) values
      dsimp only
      rw [henum.get? (by decide)]
      split
      · exact henum.insert (by decide) _
      · exact henum
  · split
    · exact h.insert (by decide) _
    · exact h

theorem withTitleMap (h : Titled title options options') (schema : Json) :
    Titled title (withTitleMap schema options) (withTitleMap schema options') := by
  unfold Schema.withTitleMap
  rw [h.get? (by decide), h.has (by decide), h.get? (by decide)]
  dsimp only
  split
  · exact h.insert (by decide) _
  · split
    · split
      · exact h.insert (by decide) _
      · exact h
    · split
      · exact h.withItemTitles _ _
      · exact h

theorem withStep (h : Titled title options options') (schema : Json) :
    Titled title (withStep schema options) (withStep schema options') := by
  unfold Schema.withStep
  rw [h.get? (by decide)]
  split
  · exact h.insert (by decide) _
  · exact h

theorem filled (h : Titled title options options') (schema : Json) :
    Titled title (filled schema options) (filled schema options') := by
  unfold Schema.filled
  rw [h.has (by decide)]
  split
  · exact h.withStep schema
  · exact (h.withTitleMap schema).withStep schema

theorem withTypeahead (h : Titled title options options') :
    Titled title (withTypeahead options) (withTypeahead options') := by
  rw [withTypeahead_eq, withTypeahead_eq,
    suggestions?_congr (h.get? (by decide)) (h.get? (by decide))]
  cases suggestions? options with
  | none => exact h
  | some suggestions => exact h.insert (by decide) suggestions

end Titled

/-- A key that is written stays written in the layers above. -/
theorem isSome_layer (h : (Table.get? options key).isSome = true) :
    (Table.get? (layer skip options own) key).isSome = true := by
  rw [get?_layer, Option.isSome_or, h, Bool.or_true]

theorem ne_of_layer {name : String}
    (hnone : Table.get? (layer skip (Table.insert options name value) own) key = none) :
    name ≠ key := by
  rintro rfl
  have hsome : (Table.get? (layer skip (Table.insert options name value) own) name).isSome =
      true := by
    refine isSome_layer ?_
    rw [Table.get?_insert, if_pos rfl]
    rfl
  rw [hnone] at hsome
  cases hsome

/-- A layer that writes no title leaves the one that is there. -/
theorem layer_titled (h : Titled title options options')
    (hnone : Table.get? (layer [] options own) "title" = none) :
    Titled title (layer [] options own) (layer [] options' own) := by
  induction own generalizing options options' with
  | nil => exact h
  | cons entry rest ih =>
      obtain ⟨name, value⟩ := entry
      rw [layer_cons] at hnone ⊢
      rw [layer_cons]
      by_cases hskip : (value.isNull || [].contains name) = true
      · rw [if_pos hskip] at hnone ⊢
        rw [if_pos hskip]
        exact ih h hnone
      · rw [if_neg hskip] at hnone ⊢
        rw [if_neg hskip]
        exact ih (h.insert (ne_of_layer hnone) value) hnone

/-- A title that is written into a layer without one is written at the end. -/
theorem layer_insert_title (ht : title.isNull = false)
    (hnone : Table.get? (layer [] options own) "title" = none) :
    Titled title (layer [] options own) (layer [] options (Table.insert own "title" title)) := by
  have hname : optionName "title" = "title" := by decide
  induction own generalizing options with
  | nil =>
      rw [Table.insert, layer_cons, ht]
      simp only [List.contains_nil, Bool.or_self, Bool.false_eq_true, if_false, hname]
      exact titled_insert title options
  | cons entry rest ih =>
      obtain ⟨name, value⟩ := entry
      rw [Table.insert]
      split
      · next he =>
          subst he
          have hskip : (value.isNull || [].contains "title") = true := by
            by_contra hwritten
            rw [layer_cons, if_neg hwritten, hname] at hnone
            exact ne_of_layer hnone rfl
          have hwritten : ¬(title.isNull || [].contains "title") = true := by
            rw [ht]
            exact Bool.false_ne_true
          rw [layer_cons, if_pos hskip] at hnone ⊢
          rw [layer_cons, if_neg hwritten, hname]
          exact layer_titled (titled_insert title options) hnone
      · rw [layer_cons] at hnone ⊢
        rw [layer_cons]
        exact ih hnone

/-- A title of its own changes nothing else of a control whose schema gives none. -/
theorem updateOptions_titled {defaults : Members} (ht : title.isNull = false)
    (hnone : Table.get? (updateOptions own schema defaults) "title" = none) :
    Titled title (updateOptions own schema defaults)
      (updateOptions (Table.insert own "title" title) schema defaults) := by
  rw [get?_updateOptions_layered _ _ _ (by decide), layered_own] at hnone
  have hlayered : Titled title (layered schema defaults own)
      (layered schema defaults (Table.insert own "title" title)) := by
    rw [layered_own, layered_own schema defaults (Table.insert own "title" title)]
    exact layer_insert_title ht hnone
  rw [updateOptions_eq, updateOptions_eq]
  exact (hlayered.filled schema).withTypeahead

end Schema

end SchemaForm
