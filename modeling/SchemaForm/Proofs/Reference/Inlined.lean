/-
The references that stay in a resolved document.

Where no link is recursive, only coined references are left (`Resolved.references_inlined`), and
a rule of the data table that is not for a coined reference leads up
(`Resolved.dataFolds_lead_up`).  A reference to an open copy names a place above the one where it
was expanded.  Merging may move it away from there, but then it is out of what the data leads
through: followed places stay above each other, and the data above them too
(`Schema.dataSegments?_of_prefix`).
-/
import SchemaForm.Proofs.Reference.Coined
import SchemaForm.Proofs.Schema.Objects

namespace SchemaForm

/-! ## References within aimed values -/

namespace Schema

open Expansion (Follows follows_none)

variable {A : Aim} {p : Option (List String)} {path : List String} {role : Role} {v : Json}
  {object : String × Members} {text : String}

/-- A schema object within a value at a path is at a path below. -/
theorem objectsFrom_below (hm : object ∈ objectsFrom (Pointer.ofSegments path) role v) :
    ∃ more, object.1 = Pointer.ofSegments (path ++ more) := by
  have habove : ∀ {path : List String} {segment place : String},
      (∃ more, place = Pointer.ofSegments ((path ++ [segment]) ++ more)) →
        ∃ more, place = Pointer.ofSegments (path ++ more) := by
    rintro path segment place ⟨more, rfl⟩
    exact ⟨segment :: more, by rw [List.append_assoc, List.singleton_append]⟩
  induction role, v using role_induction generalizing path with
  | list role items ih =>
      rw [objectsFrom_list] at hm
      obtain ⟨i, x, hx, hm⟩ := mem_objectsOfItems hm
      rw [Nat.zero_add, Pointer.item_ofSegments] at hm
      exact habove (ih x (List.mem_of_getElem? hx) hm)
  | map entries ih =>
      obtain ⟨name, w, hw, hm⟩ := mem_objectsOfMap hm
      rw [Pointer.child_ofSegments] at hm
      exact habove (ih (name, w) hw hm)
  | schema members ih =>
      rcases List.mem_cons.mp hm with rfl | hm
      · exact ⟨[], by rw [List.append_nil]⟩
      · obtain ⟨key, w, role, hw, hr, hm⟩ := mem_objectsOfMembers hm
        rw [Pointer.child_ofSegments] at hm
        exact habove (ih (key, w) hw role hr hm)
  | scalar role v harr hobj =>
      rw [objectsFrom_scalar harr hobj] at hm
      exact absurd hm List.not_mem_nil

theorem Aimed.eachObject (h : Aimed A none role v) :
    EachObject (fun members => ∀ t, reference? members = some t → A.allows none t) role v := by
  generalize hp : (none : Option (List String)) = p at h
  induction h with
  | list _ ih =>
      subst hp
      refine (eachObject_arr _).mpr fun x hx => ?_
      obtain ⟨i, hi⟩ := List.mem_iff_getElem?.mp hx
      exact ih i x hi rfl
  | map _ ih =>
      subst hp
      exact eachObject_map.mpr fun entry hm => ih entry.1 entry.2 hm rfl
  | @schema _ members href _ _ ihparts ihother =>
      subst hp
      refine eachObject_schema.mpr ⟨?_, ?_⟩
      · intro t ht
        obtain ⟨hget, hpointer⟩ := reference?_eq_some.mp ht
        exact href t (Table.mem_of_get? hget) hpointer
      · rintro ⟨key, w⟩ hm role hr
        by_cases hall : key = "allOf" ∧ ∃ items, w = .arr items
        · obtain ⟨rfl, items, rfl⟩ := hall
          exact (eachObject_arr role).mpr fun x hx => ihparts items hm x hx rfl
        · have hparts : key = "allOf" → w.arr? = none := by
            rintro rfl
            cases w with
            | arr items => exact absurd ⟨rfl, items, rfl⟩ hall
            | _ => rfl
          have hbelow := ihother key w role hm hr hparts (keywordPlace_none key).symm
          rwa [keywordPlace_none] at hbelow
  | scalar harr hobj =>
      rw [eachObject_iff "", objectsFrom_scalar harr hobj]
      exact fun object hm => absurd hm List.not_mem_nil

/-- Where no place is followed, references are allowed all the same. -/
theorem Aimed.allows_anywhere (h : Aimed A none role v) {here : String}
    (hm : object ∈ objectsFrom here role v) (href : reference? object.2 = some text) :
    A.allows none text :=
  (eachObject_iff here).mp h.eachObject object hm text href

/-- A reference is allowed at the place of its object, if the place describes any data. -/
theorem Aimed.allows_at (h : Aimed A (some path) role v) (hpath : Follows (some path) path role)
    (hm : object ∈ objectsFrom (Pointer.ofSegments path) role v)
    (href : reference? object.2 = some text) : ∃ place, object.1 = Pointer.ofSegments place ∧
      (A.allows (some place) text ∨ ∀ schema, dataSegments? schema place = none) := by
  generalize hp : some path = p at h
  induction h generalizing path with
  | list _ ih =>
      subst hp
      rw [objectsFrom_list] at hm
      obtain ⟨i, x, hx, hm⟩ := mem_objectsOfItems hm
      rw [Nat.zero_add, Pointer.item_ofSegments] at hm
      exact ih i x hx (hpath.item i) hm rfl
  | map _ ih =>
      subst hp
      obtain ⟨name, w, hw, hm⟩ := mem_objectsOfMap hm
      rw [Pointer.child_ofSegments] at hm
      exact ih name w hw (hpath.entry name) hm rfl
  | schema href' _ _ _ ihother =>
      subst hp
      have hschematic : Schematic path := (hpath path rfl).2
      rcases List.mem_cons.mp hm with rfl | hm
      · obtain ⟨hget, hpointer⟩ := reference?_eq_some.mp href
        exact ⟨path, rfl, .inl (href' text (Table.mem_of_get? hget) hpointer)⟩
      · obtain ⟨key, w, role, hw, hr, hm⟩ := mem_objectsOfMembers hm
        rw [Pointer.child_ofSegments] at hm
        cases hfollowed : isFollowed key with
        | true =>
            have hall : key = "allOf" → w.arr? = none := by
              rintro rfl
              exact absurd hfollowed (by decide)
            have hbelow := hpath.keyword hr
            rw [keywordPlace_of_followed path hfollowed] at hbelow
            exact ihother key w role hw hr hall hbelow hm
              (keywordPlace_of_followed path hfollowed).symm
        | false =>
            -- No path that passes the keyword describes any data.
            obtain ⟨more, hmore⟩ := objectsFrom_below hm
            rw [List.append_assoc, List.singleton_append] at hmore
            exact ⟨_, hmore, .inr fun schema =>
              dataSegments?_of_keyword hschematic hfollowed schema more⟩
  | scalar harr hobj =>
      rw [objectsFrom_scalar harr hobj] at hm
      exact absurd hm List.not_mem_nil

end Schema

/-! ## Resolved documents -/

namespace Expansion

open Schema (Role Aim Aimed Schematic)

variable {document : Json} {r : Resolved}

/-- The expanded schema of a document is aimed as its expansion is. -/
theorem aimed_of_of? {A : Aim} (hroot : document.Distinct)
    (hA : Granted document (Graph.of document) A) (h : Resolved.of? document = some r)
    {p : Option (List String)} (hp : Follows p [] .schema) : Aimed A p .schema r.schema := by
  have hsited : Sited [] [] := fun frame hf => absurd hf List.not_mem_nil
  exact aims hroot hA _ .refl hsited hp (Resolved.run?_of_of? h)

/-- Coined texts alone. -/
def coinedOnly (document : Json) : Aim where
  allows _ text := Coined document (Graph.of document) text
  anywhere h := h

theorem isRecursive_eq_false (h : (Graph.of document).recursiveLinks = []) (source : String) :
    (Graph.of document).isRecursive source = false := by
  refine Bool.eq_false_iff.mpr fun hrecursive => ?_
  have hsource : source ∈ (Graph.linksOf document).map Link.source := by
    cases Resolved.isRecursive_iff.mp hrecursive with
    | cycle hc _ => exact hc.source_mem
    | reached _ _ hl _ => exact List.mem_map.mpr ⟨_, hl, rfl⟩
  obtain ⟨l, hl, rfl⟩ := List.mem_map.mp hsource
  exact List.filter_eq_nil_iff.mp h l hl hrecursive

theorem granted_coinedOnly (h : (Graph.of document).recursiveLinks = []) :
    Granted document (Graph.of document) (coinedOnly document) where
  coined hcoined := hcoined
  copy := by
    intro p stack B source target copy _ _ hcopy
    have hopen : (openPlace? (Graph.of document) stack source target).isSome = true := by
      rw [hcopy]
      rfl
    have hrecursive := (openPlace?_isSome.mp hopen).1
    rw [isRecursive_eq_false h] at hrecursive
    exact absurd hrecursive Bool.false_ne_true
  raise _ hallowed := hallowed

/-- The text names a place above, or one out of what the data leads through. -/
def Upward (place : List String) (text : String) : Prop :=
  ∃ target, text = "#" ++ Pointer.ofSegments target ∧ (target <+: place ∨
    ∃ above rest, Schematic above ∧ above <+: place ∧ target = above ++ "allOf" :: rest)

theorem Upward.raise {B below rest : List String} {text : String} (hB : Schematic B)
    (h : Upward (B ++ "allOf" :: below) text) : Upward (B ++ rest) text := by
  obtain ⟨target, rfl, htarget⟩ := h
  refine ⟨target, rfl, ?_⟩
  have hsplit : ∀ {path : List String}, path <+: B ++ "allOf" :: below →
      path <+: B ∨ ∃ more, path = B ++ "allOf" :: more := by
    intro path hpath
    rcases List.prefix_or_prefix_of_prefix hpath (List.prefix_append B _) with h | ⟨more, rfl⟩
    · exact .inl h
    · cases more with
      | nil => exact .inl (by rw [List.append_nil])
      | cons key more =>
          have hkey := (List.prefix_append_right_inj B).mp hpath
          obtain ⟨rfl, -⟩ := List.cons_prefix_cons.mp hkey
          exact .inr ⟨more, rfl⟩
  have hbefore : ∀ {path : List String}, path <+: B → path <+: B ++ rest := fun hpath =>
    hpath.trans (List.prefix_append B rest)
  rcases htarget with htarget | ⟨above, more, habove, hle, rfl⟩
  · rcases hsplit htarget with htarget | ⟨more, rfl⟩
    · exact .inl (hbefore htarget)
    · exact .inr ⟨B, more, hB, List.prefix_append B rest, rfl⟩
  · rcases hsplit hle with hle | ⟨between, rfl⟩
    · exact .inr ⟨above, more, habove, hbefore hle, rfl⟩
    · exact .inr ⟨B, between ++ "allOf" :: more, hB, List.prefix_append B rest, by
        rw [List.append_assoc, List.cons_append]⟩

/-- Coined texts, and those that name a place above. -/
def coinedOrUpward (document : Json) : Aim where
  allows p text := Coined document (Graph.of document) text ∨ ∀ q, p = some q → Upward q text
  anywhere h := h.imp_right fun _ q hq => absurd hq.symm (Option.some_ne_none q)

theorem granted_coinedOrUpward (document : Json) :
    Granted document (Graph.of document) (coinedOrUpward document) where
  coined hcoined := .inl hcoined
  copy := by
    intro p stack B source target copy hp hs hcopy
    refine .inr fun q hq => ?_
    obtain rfl := hp q hq
    obtain ⟨frame, hframe, rfl⟩ := openPlace?_mem hcopy
    obtain ⟨t, ht, hbefore⟩ := hs frame hframe
    exact ⟨t, by rw [ht], .inl hbefore⟩
  raise hB hallowed := by
    refine hallowed.imp_right fun hup q hq => ?_
    obtain rfl := Option.some.inj hq
    exact (hup _ rfl).raise hB

/-- What a reference names that leads up describes data above, if it describes any. -/
theorem Upward.covers {schema : Json} {place data target : List String} {text : String}
    (h : Upward place text) (hplace : Schema.dataSegments? schema place = some data)
    {segments : List String} (htext : Pointer.segments? text = some segments)
    (htarget : Schema.dataSegments? schema segments = some target) : target <+: data := by
  obtain ⟨path, rfl, hpath⟩ := h
  obtain rfl : path = segments := by
    rw [Pointer.segments?_mark] at htext
    exact Option.some.inj htext
  rcases hpath with hpath | ⟨above, rest, habove, -, rfl⟩
  · exact Schema.dataSegments?_of_prefix hpath htarget hplace
  · rw [Schema.dataSegments?_of_keyword habove (by decide)] at htarget
    cases htarget

end Expansion

namespace Resolved

open Expansion (Coined)

variable {document : Json} {r : Resolved}

/-- **Where no reference is recursive, every one is inlined**, coined ones apart: those are all
that the compiled schema has and that the two tables have rules for. -/
theorem references_inlined (hroot : document.Distinct) (h : of? document = some r)
    (hlinks : (Graph.of document).recursiveLinks = []) :
    (∀ object ∈ Schema.objects r.schema, ∀ text, Schema.reference? object.2 = some text →
      Coined document (Graph.of document) text) ∧
    (∀ rule ∈ r.schemaFolds, Pointer.isPointer rule.2 = true →
      ∃ text, Coined document (Graph.of document) text ∧ rule.2 = Pointer.normalize text) ∧
    ∀ rule ∈ r.dataFolds, ∃ text, Coined document (Graph.of document) text ∧
      Schema.toDataPointer? r.schema (Pointer.normalize text) = some rule.2 := by
  have haimed := Expansion.aimed_of_of? hroot (Expansion.granted_coinedOnly hlinks) h
    (Expansion.follows_none [] .schema)
  have hcoined : ∀ object ∈ Schema.objects r.schema, ∀ text,
      Schema.reference? object.2 = some text → Coined document (Graph.of document) text :=
    fun object hm text href => haimed.allows_anywhere hm href
  obtain ⟨hrules, hdata⟩ := rules_noted h
  refine ⟨hcoined, ?_, ?_⟩
  · intro rule hrule hpointer
    obtain ⟨object, hm, text, hget, rfl⟩ := hrules rule hrule
    have htext := Pointer.isPointer_of_normalize hpointer
    exact ⟨text, hcoined object hm text (Schema.reference?_eq_some.mpr ⟨hget, htext⟩), rfl⟩
  · intro rule hrule
    obtain ⟨-, ⟨object, hm, text, hget, rfl⟩, -, htarget⟩ := hdata rule hrule
    obtain ⟨path, hpath, -⟩ := Option.bind_eq_some_iff.mp htarget
    have htext := Pointer.isPointer_of_normalize (Pointer.isPointer_iff.mpr ⟨path, hpath⟩)
    exact ⟨text, hcoined object hm text (Schema.reference?_eq_some.mpr ⟨hget, htext⟩), htarget⟩

/-- A document with a reference that is inlined. -/
def sharedName : Json :=
  .obj [("properties", .obj [("a", .obj [("$ref", .str "#/properties/b")]),
    ("b", .obj [("type", .str "string")])])]

theorem references_inlined_sharedName :
    sharedName.Distinct ∧ (Graph.of sharedName).recursiveLinks = [] ∧
      ∃ r, of? sharedName = some r ∧
        (∀ object ∈ Schema.objects r.schema, ∀ text, Schema.reference? object.2 = some text →
          Coined sharedName (Graph.of sharedName) text) ∧
        (∀ rule ∈ r.schemaFolds, Pointer.isPointer rule.2 = true →
          ∃ text, Coined sharedName (Graph.of sharedName) text ∧
            rule.2 = Pointer.normalize text) ∧
        ∀ rule ∈ r.dataFolds, ∃ text, Coined sharedName (Graph.of sharedName) text ∧
          Schema.toDataPointer? r.schema (Pointer.normalize text) = some rule.2 := by
  have hdistinct : sharedName.Distinct := by
    simp [sharedName, Json.Distinct, Json.DistinctMembers, Table.names]
  have hlinks : (Graph.of sharedName).recursiveLinks = [] := by decide
  obtain ⟨r, hr⟩ : ∃ r, of? sharedName = some r := ⟨_, rfl⟩
  exact ⟨hdistinct, hlinks, r, hr, references_inlined hdistinct hr hlinks⟩

/-- A document in which an object under `$ref` is expanded to a text. -/
def coinedName : Json :=
  .obj [("properties", .obj [
    ("a", .obj [("$ref", .obj [("allOf", .arr [.str "#/properties/b"])])]),
    ("b", .obj [("type", .str "string")])])]

theorem of?_coinedName : ∃ r, of? coinedName = some r ∧ r.schema = sharedName ∧
    r.schemaFolds = [("/properties/a", "/properties/b")] ∧ r.dataFolds = [("/a", "/b")] := by
  have hcoin : Expansion.finish (.obj [("allOf", .arr [.str "#/properties/b"])]) =
      .str "#/properties/b" := by
    show Schema.moveRequired (Schema.mergeAll [.str "#/properties/b"]) = _
    rw [Schema.mergeAll, List.foldl_cons, Schema.merge_nil]
    rfl
  have hrun : Expansion.run? coinedName (Graph.of coinedName) coinedName "" = some sharedName := by
    show some (Expansion.finish (.obj [("properties", .obj [
      ("a", Expansion.finish (.obj [("$ref",
        Expansion.finish (.obj [("allOf", .arr [.str "#/properties/b"])]))])),
      ("b", .obj [("type", .str "string")])])])) = _
    rw [hcoin]
    rfl
  have htargets : targets? coinedName (Graph.of coinedName) = some [] := rfl
  refine ⟨(Schema.objects sharedName).foldl note ⟨sharedName, [], [], [], [], Graph.of coinedName⟩,
    ?_, rfl, rfl, rfl⟩
  simp only [of?, hrun, htargets, Option.bind_eq_bind, Option.bind_some, Option.pure_def]

theorem not_references_inlined :
    (Graph.of coinedName).recursiveLinks = [] ∧ ∃ r, of? coinedName = some r ∧
      ("/properties/a", [("$ref", .str "#/properties/b")]) ∈ Schema.objects r.schema ∧
      ("/properties/a", "/properties/b") ∈ r.schemaFolds ∧ ("/a", "/b") ∈ r.dataFolds := by
  obtain ⟨r, hr, hschema, hfolds, hdata⟩ := of?_coinedName
  refine ⟨by decide, r, hr, ?_, ?_, ?_⟩
  · rw [hschema]
    exact List.mem_of_getElem? (i := 1) rfl
  · rw [hfolds]
    exact List.mem_cons_self
  · rw [hdata]
    exact List.mem_cons_self

/-- **The rules of the data table lead up**: to a place above or to the same one, unless the rule
is for a coined reference. -/
theorem dataFolds_lead_up (hroot : document.Distinct) (h : of? document = some r) :
    ∀ rule ∈ r.dataFolds, Pointer.covers rule.2 rule.1 = true ∨
      ∃ object ∈ Schema.objects r.schema, ∃ text, Schema.reference? object.2 = some text ∧
        Coined document (Graph.of document) text ∧
        Schema.toDataPointer? r.schema object.1 = some rule.1 ∧
        Schema.toDataPointer? r.schema (Pointer.normalize text) = some rule.2 := by
  intro rule hrule
  have hfollows : Expansion.Follows (some []) [] .schema := by
    intro q hq
    obtain rfl := Option.some.inj hq
    exact ⟨rfl, .nil⟩
  have haimed := Expansion.aimed_of_of? hroot (Expansion.granted_coinedOrUpward document) h hfollows
  obtain ⟨-, hdata⟩ := rules_noted h
  obtain ⟨-, ⟨object, hm, text, hget, rfl⟩, hsource, htarget⟩ := hdata rule hrule
  obtain ⟨path, hpath, hbelow⟩ := Option.bind_eq_some_iff.mp htarget
  have hpointer := Pointer.isPointer_of_normalize (Pointer.isPointer_iff.mpr ⟨path, hpath⟩)
  have href := Schema.reference?_eq_some.mpr ⟨hget, hpointer⟩
  obtain ⟨place, hplace, hallowed⟩ := haimed.allows_at hfollows hm href
  -- What the two places describe, segment by segment.
  obtain ⟨target, htarget', hto⟩ := Option.map_eq_some_iff.mp hbelow
  have hsource' := hsource
  rw [hplace, Schema.toDataPointer?, Pointer.segments?_ofSegments, Option.bind_some] at hsource'
  obtain ⟨data, hdata', hfrom⟩ := Option.map_eq_some_iff.mp hsource'
  have hsegments : Pointer.segments? text = some path := by
    obtain ⟨written, hwritten⟩ := Pointer.isPointer_iff.mp hpointer
    rw [Pointer.normalize_of_segments? hwritten, Pointer.segments?_ofSegments] at hpath
    rw [hwritten, Option.some.inj hpath]
  rcases hallowed with hallowed | hnone
  · rcases hallowed with hcoined | hup
    · exact .inr ⟨object, hm, text, href, hcoined, hsource, htarget⟩
    · refine .inl ?_
      rw [← hto, ← hfrom, Pointer.covers_ofSegments]
      exact (hup place rfl).covers hdata' hsegments htarget'
  · rw [hnone] at hdata'
    cases hdata'

theorem dataFolds_lead_up_selfReference :
    selfReference.Distinct ∧ ∃ r, of? selfReference = some r ∧ ("/a", "") ∈ r.dataFolds ∧
      ∀ rule ∈ r.dataFolds, Pointer.covers rule.2 rule.1 = true ∨
        ∃ object ∈ Schema.objects r.schema, ∃ text, Schema.reference? object.2 = some text ∧
          Coined selfReference (Graph.of selfReference) text ∧
          Schema.toDataPointer? r.schema object.1 = some rule.1 ∧
          Schema.toDataPointer? r.schema (Pointer.normalize text) = some rule.2 := by
  have hdistinct : selfReference.Distinct := by
    simp [selfReference, Json.Distinct, Json.DistinctMembers, Table.names]
  obtain ⟨r, hr, hdata⟩ : ∃ r, of? selfReference = some r ∧ r.dataFolds = [("/a", "")] :=
    ⟨_, rfl, rfl⟩
  exact ⟨hdistinct, r, hr, hdata ▸ List.mem_cons_self, dataFolds_lead_up hdistinct hr⟩

theorem not_dataFolds_lead_up :
    ∃ r, of? coinedName = some r ∧ ("/a", "/b") ∈ r.dataFolds ∧
      Pointer.covers "/b" "/a" = false := by
  obtain ⟨r, hr, -, -, hdata⟩ := of?_coinedName
  exact ⟨r, hr, hdata ▸ List.mem_cons_self, by decide⟩

end Resolved

end SchemaForm
