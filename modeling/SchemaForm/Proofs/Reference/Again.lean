/-
Resolving a resolved schema again.

A schema without references is resolved by one walk, which finishes every schema object.  The
result is resolved to an equal schema exactly when it is stable (`Resolved.again_iff`): each of
its schema objects is finished, and it has no definitions at its top.  Where it is not

  * the document is an `allOf` list, a schema of which has definitions: they come to the top;
  * `allOf` lists that are left are united to a longer one, which is no pair;
  * requirements are moved on from an item schema, to the item schema in it.
-/
import SchemaForm.Proofs.Reference.Plain
import SchemaForm.Proofs.Schema.Finished

namespace SchemaForm

namespace Schema

/-- Every schema object is finished, and there are no definitions at the top. -/
structure Stable (document : Json) : Prop where
  finished : ∀ object ∈ objects document, Finished object.2
  definitions : document.get? "definitions" = none
  defs : document.get? "$defs" = none

end Schema

namespace Expansion

open Schema (Role EachObject Finished Dense keyWeight weight weightItems weightMembers Stable)

variable {v : Json} {role : Role} {key : String} {members : Members} {items : List Json}

/-! ## What tidying makes -/

theorem get?_tidyMembers (members : Members) (key : String) :
    Table.get? (tidyMembers members) key = (Table.get? members key).map (tidyKeyword key) := by
  rw [tidyMembers_eq]
  induction members with
  | nil => rfl
  | cons entry rest ih =>
      rw [List.map_cons, Table.get?_cons, Table.get?_cons]
      split
      · next he => rw [he]; rfl
      · exact ih

theorem get?_tidyMap (entries : Members) (name : String) :
    Table.get? (tidyMap entries) name = (Table.get? entries name).map (tidy .schema) := by
  rw [tidyMap_eq]
  induction entries with
  | nil => rfl
  | cons entry rest ih =>
      rw [List.map_cons, Table.get?_cons, Table.get?_cons]
      split
      · rfl
      · exact ih

theorem tidyMembers_distinct (h : (Json.obj members).Distinct) :
    (Json.obj (tidyMembers members)).Distinct :=
  Json.distinct_iff.mpr (tidyMembers_everywhere (fun hsub hms => hms.sublist hsub)
    (fun _ _ role _ hv =>
      tidy_everywhere Schema.hereditary_nodup (fun hsub hms => hms.sublist hsub) role hv)
    (Json.distinct_iff.mp h))

theorem tidyKeyword_allOf (v : Json) : tidyKeyword "allOf" v = tidy .schema v := rfl

theorem weight_finish_le (h : v.Distinct) : weight (finish v) ≤ weight v := by
  have hcollapsed := Schema.weight_collapseAllOf_le h
  rcases Schema.weight_moveRequired (Schema.collapseAllOf_distinct h) with he | hlt
  · rwa [finish, he]
  · exact Nat.le_trans (Nat.le_of_lt hlt) hcollapsed

/-- Tidying makes no keyword heavier, if it makes the schema under it none. -/
theorem keyWeight_tidy_le (h : "allOf" = key → weight (tidy .schema v) ≤ weight v) :
    keyWeight key (some (tidyKeyword key v)) ≤ keyWeight key (some v) := by
  by_cases hkey : "allOf" = key
  · subst hkey
    have hle := h rfl
    rw [tidyKeyword_allOf]
    cases v with
    | arr items =>
        rw [tidy_arr] at hle ⊢
        exact (Schema.weightItems_le_iff List.isEmpty_map).mpr hle
    | _ => exact Nat.le_trans (Schema.keyWeight_allOf_le _) (Nat.add_le_add_left hle 1)
  · rw [Schema.keyWeight_of_ne (Ne.symm hkey), Schema.keyWeight_of_ne (Ne.symm hkey)]

/-- Nor does it make an object heavier; and where it makes it no lighter, it makes no keyword
lighter. -/
theorem weight_tidyMembers (hd : (Json.obj members).Distinct)
    (h : ∀ key v, Table.get? members key = some v →
      keyWeight key (some (tidyKeyword key v)) ≤ keyWeight key (some v)) :
    weight (.obj (tidyMembers members)) ≤ weight (.obj members) ∧
      (weight (.obj (tidyMembers members)) = weight (.obj members) →
        ∀ key v, Table.get? members key = some v →
          keyWeight key (some (tidyKeyword key v)) = keyWeight key (some v)) := by
  have hle : ∀ key, keyWeight key (Table.get? (tidyMembers members) key) ≤
      keyWeight key (Table.get? members key) := by
    intro key
    rw [get?_tidyMembers]
    cases hv : Table.get? members key with
    | none => exact Nat.le_refl 0
    | some v => exact h key v hv
  have hnames : ∀ key ∈ Table.names members, key ∈ (Table.names members).toFinset :=
    fun key hkey => List.mem_toFinset.mpr hkey
  have htidied : ∀ key ∈ Table.names (tidyMembers members),
      key ∈ (Table.names members).toFinset := by
    rwa [names_tidyMembers]
  rw [Schema.weight_obj hd.1 hnames, Schema.weight_obj (tidyMembers_distinct hd).1 htidied]
  refine ⟨Finset.sum_le_sum fun key _ => hle key, fun heq key v hv => ?_⟩
  have hmem := Table.mem_names.mpr ⟨v, Table.mem_of_get? hv⟩
  have hkey := (Finset.sum_eq_sum_iff_of_le fun key _ => hle key).mp heq key (hnames key hmem)
  rwa [get?_tidyMembers, hv] at hkey

theorem weightItems_map_le (h : ∀ x ∈ items, weight (tidy .schema x) ≤ weight x) :
    weightItems (items.map (tidy .schema)) ≤ weightItems items := by
  induction items with
  | nil => exact Nat.le_refl 0
  | cons x xs ih =>
      rw [List.forall_mem_cons] at h
      exact Nat.add_le_add h.1 (ih h.2)

theorem weight_tidy_le (hd : v.Distinct) : weight (tidy .schema v) ≤ weight v := by
  have h : ∀ role, role = .schema → weight (tidy role v) ≤ weight v := by
    intro role hrole
    induction role, v using Schema.role_induction with
    | list role items ih =>
        have hitems : ∀ x ∈ items, weight (tidy .schema x) ≤ weight x :=
          fun x hx => ih x hx (Json.distinctItems_iff.mp hd x hx) rfl
        rw [tidy_arr]
        exact (Schema.weightItems_le_iff List.isEmpty_map).mp (weightItems_map_le hitems)
    | map entries => cases hrole
    | schema members ih =>
        refine Nat.le_trans (weight_finish_le (tidyMembers_distinct hd))
          (weight_tidyMembers hd fun key v hv => keyWeight_tidy_le ?_).1
        rintro rfl
        exact ih ("allOf", v) (Table.mem_of_get? hv) .schema rfl (hd.member hv) rfl
    | scalar role v harr hobj => rw [tidy_scalar harr hobj]
  exact h .schema rfl

theorem keyWeight_tidyMembers_le (hd : (Json.obj members).Distinct) (key : String) (v : Json)
    (hv : Table.get? members key = some v) :
    keyWeight key (some (tidyKeyword key v)) ≤ keyWeight key (some v) :=
  keyWeight_tidy_le fun _ => weight_tidy_le (hd.member hv)

/-- What tidying leaves of `allOf` lists has two schemas or more. -/
theorem tidy_dense (hd : v.Distinct) : Dense (tidy .schema v) := by
  have h : ∀ role, role = .schema → Dense (tidy role v) := by
    intro role hrole
    induction role, v using Schema.role_induction with
    | list role items ih =>
        rw [tidy_arr, Schema.dense_arr, List.forall_mem_map]
        exact fun x hx => ih x hx (Json.distinctItems_iff.mp hd x hx) rfl
    | map entries => cases hrole
    | schema members ih =>
        have hdistinct := tidyMembers_distinct hd
        refine Dense.moveRequired (Dense.collapseAllOf hdistinct fun parts hparts => ?_)
          (Schema.collapseAllOf_distinct hdistinct)
        rw [get?_tidyMembers] at hparts
        obtain ⟨v, hv, hparts⟩ := Option.map_eq_some_iff.mp hparts
        have hdense := ih ("allOf", v) (Table.mem_of_get? hv) .schema rfl (hd.member hv) rfl
        rw [← tidyKeyword_allOf, hparts] at hdense
        exact Schema.dense_arr.mp hdense
    | scalar role v harr hobj =>
        rw [tidy_scalar harr hobj]
        cases v with
        | arr items => cases harr
        | obj members => cases hobj
        | _ => trivial
  exact h .schema rfl

/-! ## Tidying what is finished -/

/-- Tidied members are equal when each keyword's value is. -/
theorem tidyMembers_same (hd : (Json.obj members).Distinct)
    (h : ∀ entry ∈ members, (tidyKeyword entry.1 entry.2).same entry.2) :
    (Json.obj (tidyMembers members)).same (.obj members) := by
  rw [Json.same_obj_iff (tidyMembers_distinct hd) hd]
  intro key
  rw [get?_tidyMembers]
  cases hv : Table.get? members key with
  | none => exact .none
  | some v => exact .some (h (key, v) (Table.mem_of_get? hv))

/-- Tidying gives an equal value, if every schema object in it is finished. -/
theorem tidy_same (hd : v.Distinct) (h : EachObject Finished role v) : (tidy role v).same v := by
  induction role, v using Schema.role_induction with
  | list role items ih =>
      rw [Schema.eachObject_arr] at h
      rw [tidy_arr]
      refine Json.sameItems_iff.mpr (List.forall₂_map_left_iff.mpr (List.forall₂_same.mpr ?_))
      exact fun x hx => ih x hx (Json.distinctItems_iff.mp hd x hx) (h x hx)
  | map entries ih =>
      rw [Schema.eachObject_map] at h
      have hdistinct := tidy_distinct .map hd
      rw [tidy] at hdistinct ⊢
      rw [Json.same_obj_iff hdistinct hd]
      intro name
      rw [get?_tidyMap]
      cases hv : Table.get? entries name with
      | none => exact .none
      | some v =>
          have hm := Table.mem_of_get? hv
          exact .some (ih (name, v) hm (hd.member hv) (h (name, v) hm))
  | schema members ih =>
      rw [Schema.eachObject_schema] at h
      have hdistinct := tidyMembers_distinct hd
      have hkeyword : ∀ entry ∈ members, (tidyKeyword entry.1 entry.2).same entry.2 := by
        intro entry hm
        have hdv := Json.distinctMembers_iff.mp hd.2 entry hm
        unfold tidyKeyword
        split
        · next role hrole => exact ih entry hm role hrole hdv (h.2 entry hm role hrole)
        · exact Json.same_refl hdv
      have hsame := tidyMembers_same hd hkeyword
      -- the tidied members are finished, as the members are
      have hfinished := h.1.same hd hdistinct (Json.same_symm hdistinct hd hsame)
      exact Json.same_trans (hfinished.finish hdistinct) hsame
  | scalar role v harr hobj =>
      rw [tidy_scalar harr hobj]
      exact Json.same_refl hd

/-! ## What tidying gives back -/

/-- A list of tidied schemas as heavy as the schemas: each of them is as heavy. -/
theorem weights_of_map (hle : ∀ x ∈ items, weight (tidy .schema x) ≤ weight x)
    (h : weightItems (items.map (tidy .schema)) = weightItems items) :
    List.Forall₂ (fun x part => weight x = weight part) items (items.map (tidy .schema)) := by
  induction items with
  | nil => exact .nil
  | cons x xs ih =>
      rw [List.forall_mem_cons] at hle
      have hrest := weightItems_map_le hle.2
      simp only [List.map_cons, weightItems] at h
      exact .cons (by omega) (ih hle.2 (by omega))

/-- An object that tidying gives back is finished, and so are its members given back. -/
theorem finished_of_tidy_same (hd : (Json.obj members).Distinct)
    (h : (tidy .schema (.obj members)).same (.obj members)) :
    Finished members ∧ (Json.obj (tidyMembers members)).same (.obj members) := by
  have hdistinct := tidyMembers_distinct hd
  have hsame := Schema.weight_same (tidy_distinct .schema hd) hd h
  have hfinish := weight_finish_le hdistinct
  obtain ⟨hle, htight⟩ := weight_tidyMembers hd (keyWeight_tidyMembers_le hd)
  rw [tidy] at h hsame
  have hweight : weight (.obj (tidyMembers members)) = weight (.obj members) := by omega
  have hnames : ∀ key, Table.get? (tidyMembers members) key = none ↔
      Table.get? members key = none := by
    intro key
    rw [get?_tidyMembers, Option.map_eq_none_iff]
  have hlist : ∀ parts, Table.get? (tidyMembers members) "allOf" = some (.arr parts) →
      (∀ part ∈ parts, Dense part) ∧ ∃ xs, Table.get? members "allOf" = some (.arr xs) ∧
        List.Forall₂ (fun x part => weight x = weight part) xs parts := by
    intro parts hparts
    rw [get?_tidyMembers] at hparts
    obtain ⟨v, hv, hparts⟩ := Option.map_eq_some_iff.mp hparts
    have hdv := hd.member hv
    have hkey := htight hweight "allOf" v hv
    have hdense := tidy_dense hdv
    have hlight := weight_tidy_le hdv
    rw [hparts] at hkey
    rw [tidyKeyword_allOf] at hparts
    rw [hparts] at hdense hlight
    refine ⟨Schema.dense_arr.mp hdense, ?_⟩
    cases v with
    | arr items =>
        rw [tidy_arr] at hparts
        obtain rfl := Json.arr.inj hparts
        exact ⟨items, hv, weights_of_map
          (fun x hx => weight_tidy_le (Json.distinctItems_iff.mp hdv x hx)) hkey⟩
    | _ =>
        -- a value that becomes a list loses weight
        have hlost := Schema.weightItems_le parts
        simp only [keyWeight, if_true] at hkey
        omega
  obtain ⟨hfinished, hmembers⟩ := Schema.finished_of_same hdistinct hd hweight hlist hnames h
  exact ⟨hfinished.same hdistinct hd hmembers, hmembers⟩

/-- Where tidying gives an equal value every schema object in it is finished. -/
theorem each_of_tidy_same (hd : v.Distinct) (h : (tidy role v).same v) :
    EachObject Finished role v := by
  induction role, v using Schema.role_induction with
  | list role items ih =>
      rw [tidy_arr] at h
      have hitems := List.forall₂_map_left_iff.mp (Json.sameItems_iff.mp h)
      rw [Schema.eachObject_arr]
      exact fun x hx =>
        ih x hx (Json.distinctItems_iff.mp hd x hx) (List.forall₂_same.mp hitems x hx)
  | map entries ih =>
      have hdistinct := tidy_distinct .map hd
      rw [tidy] at h hdistinct
      rw [Schema.eachObject_map]
      rintro ⟨name, v⟩ hm
      have hrel := (Json.same_obj_iff hdistinct hd).mp h name
      rw [get?_tidyMap, Table.get?_of_mem hd.1 hm] at hrel
      cases hrel with
      | some hsame => exact ih (name, v) hm (Json.distinctMembers_iff.mp hd.2 _ hm) hsame
  | schema members ih =>
      obtain ⟨hfinished, hmembers⟩ := finished_of_tidy_same hd h
      rw [Schema.eachObject_schema]
      refine ⟨hfinished, ?_⟩
      rintro ⟨key, v⟩ hm role hrole
      have hrel := (Json.same_obj_iff (tidyMembers_distinct hd) hd).mp hmembers key
      rw [get?_tidyMembers, Table.get?_of_mem hd.1 hm] at hrel
      cases hrel with
      | some hsame =>
          simp only [tidyKeyword, hrole] at hsame
          exact ih (key, v) hm role hrole (Json.distinctMembers_iff.mp hd.2 _ hm) hsame
  | scalar role v harr hobj =>
      rw [Schema.eachObject_iff "", Schema.objectsFrom_scalar harr hobj]
      exact fun _ hm => absurd hm List.not_mem_nil

/-- Tidying gives an equal value exactly if every schema object in it is finished. -/
theorem tidy_same_iff (hd : v.Distinct) : (tidy role v).same v ↔ EachObject Finished role v :=
  ⟨each_of_tidy_same hd, tidy_same hd⟩

/-! ## Documents -/

theorem weightMembers_filter_le (q : String × Json → Bool) (members : Members) :
    weightMembers (members.filter q) ≤ weightMembers members := by
  induction members with
  | nil => exact Nat.le_refl 0
  | cons entry rest ih =>
      obtain ⟨key, v⟩ := entry
      rw [List.filter_cons]
      split <;> simp only [Schema.weightMembers_cons] <;> omega

/-- Where nothing that weighs is left out, nothing is. -/
theorem filter_eq_of_weightMembers {q : String × Json → Bool}
    (h : ∀ entry ∈ members, q entry = false → "allOf" ≠ entry.1)
    (hweight : weightMembers (members.filter q) = weightMembers members) :
    members.filter q = members := by
  induction members with
  | nil => rfl
  | cons entry rest ih =>
      obtain ⟨key, v⟩ := entry
      rw [List.forall_mem_cons] at h
      have hle := weightMembers_filter_le q rest
      rw [List.filter_cons] at hweight ⊢
      split at hweight
      · next hq =>
          simp only [Schema.weightMembers_cons, Nat.add_left_cancel_iff] at hweight
          rw [if_pos hq, ih h.2 hweight]
      · next hq =>
          rw [Schema.weightMembers_cons,
            Schema.keyWeight_of_ne (Ne.symm (h.1 (Bool.eq_false_iff.mpr hq)))] at hweight
          omega

/-- Leaving the definitions out changes a document only if it has some. -/
theorem filter_isLeftOut_iff : members.filter (fun member => !isLeftOut "" member.1) = members ↔
    Table.get? members "definitions" = none ∧ Table.get? members "$defs" = none := by
  rw [List.filter_eq_self, Table.get?_eq_none_iff, Table.get?_eq_none_iff]
  have hleft : ∀ key, (!isLeftOut "" key) = true ↔ key ≠ "definitions" ∧ key ≠ "$defs" := by
    intro key
    simp [isLeftOut]
  simp only [hleft, Table.mem_names, not_exists]
  constructor
  · exact fun h => ⟨fun v hm => (h _ hm).1 rfl, fun v hm => (h _ hm).2 rfl⟩
  · rintro ⟨h, h'⟩ ⟨key, v⟩ hm
    exact ⟨fun he => h v (he ▸ hm), fun he => h' v (he ▸ hm)⟩

theorem filter_distinct (q : String × Json → Bool) (hd : (Json.obj members).Distinct) :
    (Json.obj (members.filter q)).Distinct :=
  ⟨hd.1.sublist (List.filter_sublist.map _), Json.distinctMembers_iff.mpr fun entry hm =>
    Json.distinctMembers_iff.mp hd.2 entry (List.mem_filter.mp hm).1⟩

/-- A document that tidying gives back has no definitions at its top. -/
theorem filter_of_tidyDocument_same (hd : (Json.obj members).Distinct)
    (h : (tidyDocument (.obj members)).same (.obj members)) :
    members.filter (fun member => !isLeftOut "" member.1) = members := by
  have hkept := filter_distinct (fun member => !isLeftOut "" member.1) hd
  have hsame := Schema.weight_same (tidyDocument_distinct hd) hd h
  have hlight := weight_tidy_le hkept
  have hle := weightMembers_filter_le (fun member => !isLeftOut "" member.1) members
  rw [tidyDocument, ← tidy] at hsame
  refine filter_eq_of_weightMembers (fun entry _ hleft => ?_) ?_
  · rintro he
    rw [← he] at hleft
    cases hleft
  · rw [hsame, weight, weight] at hlight
    omega

/-- Tidying a document gives an equal one exactly if it is stable. -/
theorem tidyDocument_same_iff (hd : v.Distinct) : (tidyDocument v).same v ↔ Stable v := by
  have hfinished : EachObject Finished .schema v ↔ ∀ object ∈ Schema.objects v, Finished object.2 :=
    Schema.eachObject_iff ""
  cases v with
  | obj members =>
      have htidy (hkept : members.filter (fun member => !isLeftOut "" member.1) = members) :
          tidyDocument (.obj members) = tidy .schema (.obj members) := by
        rw [tidyDocument, hkept, tidy]
      constructor
      · intro h
        have hkept := filter_of_tidyDocument_same hd h
        obtain ⟨hdefinitions, hdefs⟩ := filter_isLeftOut_iff.mp hkept
        rw [htidy hkept, tidy_same_iff hd, hfinished] at h
        exact ⟨h, hdefinitions, hdefs⟩
      · intro h
        rw [htidy (filter_isLeftOut_iff.mpr ⟨h.definitions, h.defs⟩), tidy_same_iff hd, hfinished]
        exact h.finished
  | arr items =>
      rw [tidyDocument, tidy_same_iff hd, hfinished]
      · exact ⟨fun h => ⟨h, rfl, rfl⟩, fun h => h.finished⟩
      · exact fun _ h => by cases h
  | null | bool _ | num _ | str _ =>
      refine ⟨fun _ => ⟨?_, rfl, rfl⟩, fun _ => Json.same_refl hd⟩
      exact fun _ hm => absurd hm List.not_mem_nil

end Expansion

namespace Resolved

open Expansion (tidyDocument)

/-- Resolving a resolved schema without references again gives an equal one exactly if it is
stable. -/
theorem again_iff {document : Json} (hd : document.Distinct) (hp : document.Lacks "$ref") :
    ∃ first second, of? document = some first ∧ of? first.schema = some second ∧
      (second.schema.same first.schema ↔ Schema.Stable first.schema) := by
  obtain ⟨first, hfirst, hschema⟩ := of?_plain hp
  obtain ⟨second, hsecond, hagain⟩ := of?_plain (Expansion.tidyDocument_lacks hp)
  refine ⟨first, second, hfirst, hschema ▸ hsecond, ?_⟩
  rw [hagain, hschema]
  exact Expansion.tidyDocument_same_iff (Expansion.tidyDocument_distinct hd)

/-- Two patterns, which are kept side by side. -/
def patterns : Json :=
  .obj [("allOf", .arr [.obj [("pattern", .str "a")], .obj [("pattern", .str "b")]])]

theorem merge_patterns :
    Schema.merge (.obj [("pattern", .str "a")]) (.obj [("pattern", .str "b")]) =
      Schema.sideBySide (.obj [("pattern", .str "a")]) (.obj [("pattern", .str "b")]) := by
  have hnone : Schema.both? "pattern" (.str "a") (.str "b") = none := by
    rw [Schema.both?, Schema.combineKeyword_of_not_alternative (by decide)]
    rfl
  exact Schema.merge_conflict rfl hnone trivial rfl

theorem again_iff_patterns :
    patterns.Distinct ∧ patterns.Lacks "$ref" ∧ ∃ first second, of? patterns = some first ∧
      of? first.schema = some second ∧ second.schema.same first.schema := by
  have hd : patterns.Distinct := by
    simp [patterns, Json.Distinct, Json.DistinctItems, Json.DistinctMembers, Table.names]
  have hp : patterns.Lacks "$ref" := by
    simp [patterns, Json.Lacks, Json.Everywhere, Json.EverywhereItems, Json.EverywhereMembers,
      Table.names]
  have hschema : tidyDocument patterns = patterns := by
    show Schema.moveRequired (Schema.mergeAll
      [.obj [("pattern", .str "a")], .obj [("pattern", .str "b")]]) = patterns
    rw [Schema.mergeAll_pair, merge_patterns]
    rfl
  have hplain : ∀ text, Schema.Finished [("pattern", .str text)] := fun text =>
    ⟨fun _ hparts => (by cases hparts), rfl⟩
  have hpair : Schema.Finished [("allOf", .arr [.obj [("pattern", .str "a")],
      .obj [("pattern", .str "b")]])] :=
    ⟨fun _ hparts => ⟨_, _, (Json.arr.inj (Option.some.inj hparts)).symm, merge_patterns⟩, rfl⟩
  have hstable : Schema.Stable patterns := by
    refine ⟨(Schema.eachObject_iff "").mp (Schema.eachObject_schema.mpr ⟨hpair, ?_⟩), rfl, rfl⟩
    rw [List.forall_mem_singleton]
    intro role _
    rw [Schema.eachObject_arr, List.forall_mem_cons, List.forall_mem_singleton]
    exact ⟨⟨hplain "a", trivial, trivial⟩, hplain "b", trivial, trivial⟩
  obtain ⟨r, hr, hresolved⟩ := of?_plain hp
  obtain ⟨first, second, hfirst, hsecond, hiff⟩ := again_iff hd hp
  obtain rfl : r = first := Option.some.inj (hr.symm.trans hfirst)
  exact ⟨hd, hp, r, second, hfirst, hsecond, hiff.mpr (by rwa [hresolved, hschema])⟩

/-- A list of one schema, which has definitions. -/
def listedDefinitions : Json :=
  .obj [("allOf", .arr [.obj [("definitions", .obj [("a", .obj [])])]])]

theorem not_again : listedDefinitions.Distinct ∧ listedDefinitions.Lacks "$ref" ∧
    ∃ first second, of? listedDefinitions = some first ∧ of? first.schema = some second ∧
      second.schema.same first.schema = false := by
  have hd : listedDefinitions.Distinct := by
    simp [listedDefinitions, Json.Distinct, Json.DistinctItems, Json.DistinctMembers, Table.names]
  have hp : listedDefinitions.Lacks "$ref" := by
    simp [listedDefinitions, Json.Lacks, Json.Everywhere, Json.EverywhereItems,
      Json.EverywhereMembers, Table.names]
  obtain ⟨first, hfirst, hschema⟩ := of?_plain hp
  obtain ⟨second, hsecond, hagain⟩ := of?_plain (Expansion.tidyDocument_lacks hp)
  have hdefinitions : tidyDocument listedDefinitions =
      .obj [("definitions", .obj [("a", .obj [])])] := by
    show Schema.moveRequired
      (Schema.merge (.obj []) (.obj [("definitions", .obj [("a", .obj [])])])) = _
    rw [Schema.merge_nil]
    rfl
  refine ⟨hd, hp, first, second, hfirst, hschema ▸ hsecond, ?_⟩
  rw [hagain, hschema, hdefinitions]
  rfl

end Resolved

end SchemaForm
