/-
Deep pointers.

A data pointer is realized by a walk of the expanded schema that steps down to properties, list
positions and fixed positions, and goes on at the target wherever it comes to a reference
(`Resolved.Realized`).  However deep it gets, its shallowest equivalent is described by the schema
where the walk is (`Resolved.realized_located`), if the two tables are in step and every list with
a reference below is an array by the name of its type: the table of arrays knows only those, while
a walk steps into a list whose type is one of several.

What carries the induction is that the shallowest equivalent is *tracked* (`Tracked`): it leads to
the field where the walk is, and it is the very place of that field as long as there are
references to come.
-/
import SchemaForm.Proofs.Reference.InStep

namespace SchemaForm

namespace Pointer

theorem index?_of_numeral {key : String} {index : Nat} (h : numeral? key.toList = some index)
    (hword : index < Number.wordLimit) : index? key = some index := by
  unfold index?
  split
  · next rest hplus =>
      rw [hplus, numeral?, if_neg] at h
      · cases h
      · rintro ⟨-, hdigits⟩
        exact absurd (List.all_eq_true.mp hdigits '+' List.mem_cons_self) (by decide)
  · exact (congrArg _ h).trans (Option.filter_some.trans (if_pos (decide_eq_true hword)))

end Pointer

namespace Resolved

open Pointer (ofSegments Moves Apart shallowest genericSegment genericSegments)
open Schema (Field locateFrom? stepInto?)

variable {r : Resolved} {document : Json} {path place target landing p : List String}
  {s t : Json} {key : String}

/-- The data pointer is read off a walk of the schema that ends at the path. -/
inductive Realized (r : Resolved) : List String → Json → List String → Prop
  | root : Realized r [] r.schema []
  | property {path p : List String} {s t : Json} {properties : Members} {name : String} :
      Realized r path s p → (∀ target, ¬r.Refers path target) →
      (s.get? "properties").bind Json.obj? = some properties →
      Table.get? properties name = some t →
      Realized r (path ++ ["properties", name]) t (p ++ [name])
  | list {path p : List String} {s : Json} {members : Members} {key : String} {index : Nat} :
      Realized r path s p → (∀ target, ¬r.Refers path target) →
      Schema.typeName? s = some "array" → s.get? "items" = some (.obj members) →
      Pointer.numeral? key.toList = some index →
      Realized r (path ++ ["items"]) (.obj members) (p ++ [key])
  | position {path p : List String} {s t : Json} {tuple : List Json} {index : Nat} :
      Realized r path s p → (∀ target, ¬r.Refers path target) →
      (s.get? "items").bind Json.arr? = some tuple → tuple[index]? = some t →
      Realized r (path ++ ["items", Nat.repr index]) t (p ++ [Nat.repr index])
  | jump {path target p : List String} {s t : Json} :
      Realized r path s p → r.Refers path target → r.schema.follow? target = some t →
      Realized r target t p

/-- Every list that a walk steps into is an array by name where a reference is below. -/
def ListsNamed (r : Resolved) : Prop :=
  ∀ path place s members, Field r.schema path place s → Schema.typeName? s = some "array" →
    s.get? "items" = some (.obj members) → r.HoldsReference (path ++ ["items"]) →
    Schema.isTyped s "array" = true

/-- The shallowest equivalent leads to the field at the path, and is its place if there is a
reference at the path or below. -/
structure Tracked (r : Resolved) (path place : List String) (s : Json) (p : List String) :
    Prop where
  field : Field r.schema path place s
  found : locateFrom? r.schema (shallowest r.dataFolds r.arrays p) = some (.declared path s)
  deep : r.HoldsReference path → shallowest r.dataFolds r.arrays p = place

/-- A walk that comes to the path goes on at the landing. -/
def LandsAt (r : Resolved) (path landing : List String) : Prop :=
  r.Refers path landing ∨ (∀ target, ¬r.Refers path target) ∧ landing = path

namespace InStep

variable (hr : r.InStep) (h : of? document = some r)

include hr h

/-- A reference is led on from its target only to the target itself. -/
theorem refers_target {above : List String} (hfield : Field r.schema path place s)
    (hrefers : r.Refers path target) (hagain : r.Refers target above) : above = target := by
  obtain ⟨data, t, htarget, hle⟩ := hr.upward _ _ _ _ hfield hrefers
  obtain ⟨data', t', habove, -⟩ := hr.upward _ _ _ _ htarget hagain
  by_cases hsame : data' = data
  · subst hsame
    exact (habove.unique hr.legible htarget).1
  · have hmoves := hr.moves_of_refers h htarget hagain habove hsame
    by_cases hself : data = place
    · subst hself
      obtain ⟨rfl, -⟩ := htarget.unique hr.legible hfield
      exact (hrefers.unique hagain)
    · have hmoves' := hr.moves_of_refers h hfield hrefers htarget hself
      exact absurd (hr.alone _ _ _ _ hmoves hmoves' hle).symm hself

omit h in
/-- A walk that is at no reference goes on where it is. -/
theorem tracked_here {above : List String} (hplace : Field r.schema path place s)
    (hnot : ∀ target, ¬r.Refers path target) (hlands : r.LandsAt path landing)
    (htracked : r.Tracked landing above t p) : r.Tracked path place s p := by
  obtain ⟨-, rfl⟩ := hlands.resolve_left (hnot landing)
  obtain rfl : above = place := Option.some.inj
    ((htracked.field.dataSegments? hr.legible).symm.trans (hplace.dataSegments? hr.legible))
  obtain ⟨-, rfl⟩ := htracked.field.unique hr.legible hplace
  exact htracked

/-- A data rule leads from the place of a reference to the place of its target. -/
theorem climb_reference {above : List String} (hfield : Field r.schema path place s)
    (hrefers : r.Refers path target) (htarget : Field r.schema target above t) :
    Pointer.climb r.dataFolds place = above := by
  have hapart := hr.apart h
  by_cases hself : above = place
  · subst hself
    refine hapart.climb_of_not_moves fun other hmoves => ?_
    obtain ⟨target', t', hrefers', htarget'⟩ :=
      hr.refers_of_rule h hmoves.1 (hfield.found hr.legible)
    obtain rfl := hrefers.unique hrefers'
    have hdata := (htarget'.dataSegments? hr.legible).symm.trans
      (htarget.dataSegments? hr.legible)
    exact hmoves.2.2 (Option.some.inj hdata)
  · exact hapart.climb_of_moves (hr.moves_of_refers h hfield hrefers htarget hself)

/-- One step further down the shallowest equivalent is tracked again. -/
theorem tracked_step {step : List String} {next : String} (htracked : r.Tracked path place s p)
    (hchild : Field r.schema (path ++ step) (place ++ [next]) t)
    (hstep : stepInto? s (genericSegment r.arrays (shallowest r.dataFolds r.arrays p) key) =
      some (.declared step t))
    (hnext : r.HoldsReference (path ++ step) → genericSegment r.arrays place key = next) :
    ∃ landing above t, r.LandsAt (path ++ step) landing ∧
      r.Tracked landing above t (p ++ [key]) := by
  have hfound := Schema.locateFrom?_concat htracked.found hstep
  have hdeep : r.HoldsReference (path ++ step) → shallowest r.dataFolds r.arrays p ++
      [genericSegment r.arrays (shallowest r.dataFolds r.arrays p) key] = place ++ [next] := by
    intro hholds
    rw [htracked.deep (hholds.of_below (List.prefix_append _ _)), hnext hholds]
  by_cases hrefers : ∃ target, r.Refers (path ++ step) target
  · obtain ⟨target, hrefers⟩ := hrefers
    obtain ⟨above, t', htarget, -⟩ := hr.upward _ _ _ _ hchild hrefers
    have hshallowest : shallowest r.dataFolds r.arrays (p ++ [key]) = above := by
      rw [Pointer.shallowest_concat,
        hdeep ⟨_, _, _, _, hchild, hrefers, List.prefix_rfl⟩,
        hr.climb_reference h hchild hrefers htarget]
    refine ⟨target, above, t', .inl hrefers, htarget, ?_, fun _ => hshallowest⟩
    rw [hshallowest]
    exact htarget.found hr.legible
  · have hnot : ∀ target, ¬r.Refers (path ++ step) target := fun target ht => hrefers ⟨target, ht⟩
    have hshallowest : shallowest r.dataFolds r.arrays (p ++ [key]) =
        shallowest r.dataFolds r.arrays p ++
          [genericSegment r.arrays (shallowest r.dataFolds r.arrays p) key] := by
      rw [Pointer.shallowest_concat, (hr.apart h).climb_of_not_moves]
      intro other hmoves
      obtain ⟨target', -, hrefers', -⟩ := hr.refers_of_rule h hmoves.1 hfound
      exact hnot target' hrefers'
    exact ⟨path ++ step, _, t, .inr ⟨hnot, rfl⟩, hchild, hshallowest ▸ hfound, hshallowest ▸ hdeep⟩

omit h in
theorem tracked_root : ∃ landing above t, r.LandsAt [] landing ∧ r.Tracked landing above t [] := by
  by_cases hrefers : ∃ target, r.Refers [] target
  · obtain ⟨target, hrefers⟩ := hrefers
    obtain ⟨above, t, htarget, hle⟩ := hr.upward _ _ _ _ .root hrefers
    obtain rfl := List.prefix_nil.mp hle
    obtain ⟨rfl, rfl⟩ := htarget.unique hr.legible .root
    exact ⟨[], [], _, .inl hrefers, .root, rfl, fun _ => rfl⟩
  · exact ⟨[], [], _, .inr ⟨fun target ht => hrefers ⟨target, ht⟩, rfl⟩, .root, rfl, fun _ => rfl⟩

/-- What a walk realizes is tracked where the walk goes on. -/
theorem tracked (hlists : r.ListsNamed) (hp : r.Realized path s p)
    (hwords : ∀ key ∈ p, (Pointer.numeral? key.toList).all (· < Number.wordLimit) = true) :
    (∃ place, Field r.schema path place s) ∧
      ∃ landing above t, r.LandsAt path landing ∧ r.Tracked landing above t p := by
  induction hp with
  | root => exact ⟨⟨[], .root⟩, hr.tracked_root⟩
  | property _ hnot hproperties ht ih =>
      obtain ⟨⟨place, hplace⟩, landing, above, t, hlands, htracked⟩ :=
        ih fun key hk => hwords key (List.mem_append_left _ hk)
      have hhere := hr.tracked_here hplace hnot hlands htracked
      have hlegible := hr.legible _ _ _ hplace
      refine ⟨⟨_, hplace.property hproperties ht⟩,
        hr.tracked_step h hhere (hplace.property hproperties ht) ?_ fun _ => ?_⟩
      · rw [hr.genericSegment_property h hlegible hhere.found hproperties ht]
        exact hlegible.stepInto?_property hproperties ht
      · exact hr.genericSegment_property h hlegible (hplace.found hr.legible) hproperties ht
  | @list path p s members key index _ hnot htype hitems hindex ih =>
      obtain ⟨⟨place, hplace⟩, landing, above, t, hlands, htracked⟩ :=
        ih fun key hk => hwords key (List.mem_append_left _ hk)
      have hhere := hr.tracked_here hplace hnot hlands htracked
      have hword := hwords key (List.mem_append_right _ List.mem_cons_self)
      rw [hindex, Option.all_some, decide_eq_true_eq] at hword
      have hposition := Pointer.index?_of_numeral hindex hword
      refine ⟨⟨_, hplace.items hitems⟩,
        hr.tracked_step h hhere (hplace.items hitems) ?_ fun hholds => ?_⟩
      · refine Schema.stepInto?_list hitems ?_
        rcases Pointer.genericSegment_cases r.arrays (shallowest r.dataFolds r.arrays p) key
          with he | he
        · rw [he]
          decide
        · rw [he, Schema.isPosition, hposition]
          rfl
      · have htyped := hlists _ _ _ _ hplace htype hitems hholds
        exact hr.genericSegment_list h hplace htyped hitems hposition
  | position _ hnot htuple ht ih =>
      obtain ⟨⟨place, hplace⟩, landing, above, t, hlands, htracked⟩ :=
        ih fun key hk => hwords key (List.mem_append_left _ hk)
      have hhere := hr.tracked_here hplace hnot hlands htracked
      refine ⟨⟨_, hplace.position htuple ht⟩,
        hr.tracked_step h hhere (hplace.position htuple ht) ?_ fun _ => ?_⟩
      · rw [hr.genericSegment_position h hhere.found htuple ht]
        exact (hr.legible _ _ _ hplace).stepInto?_position htuple ht
      · exact hr.genericSegment_position h (hplace.found hr.legible) htuple ht
  | @jump path target p s t _ hrefers ht ih =>
      obtain ⟨⟨place, hplace⟩, landing, above, t', hlands, htracked⟩ := ih hwords
      obtain ⟨data, t'', htarget, -⟩ := hr.upward _ _ _ _ hplace hrefers
      obtain rfl : t'' = t := Option.some.inj (htarget.follow.symm.trans ht)
      refine ⟨⟨data, htarget⟩, ?_⟩
      obtain rfl : landing = target := by
        rcases hlands with hlands | ⟨hnot, -⟩
        · exact hrefers.unique hlands
        · exact absurd hrefers (hnot target)
      refine ⟨landing, above, t', ?_, htracked⟩
      by_cases hagain : ∃ next, r.Refers landing next
      · obtain ⟨next, hagain⟩ := hagain
        obtain rfl := hr.refers_target h hplace hrefers hagain
        exact .inl hagain
      · exact .inr ⟨fun next hnext => hagain ⟨next, hnext⟩, rfl⟩

end InStep

/-- **Deep pointers reduce to places of the schema**: to the one where the walk is, or, at a
reference, to the target. -/
theorem realized_located (h : of? document = some r) (hr : r.InStep) (hlists : r.ListsNamed)
    (hp : r.Realized path s p)
    (hwords : ∀ key ∈ p, (Pointer.numeral? key.toList).all (· < Number.wordLimit) = true) :
    ∃ landing, r.LandsAt path landing ∧
      Schema.pointerOfData? r.schema (Pointer.shorten r.dataFolds r.arrays (ofSegments p)) =
        some (ofSegments landing) := by
  obtain ⟨-, landing, above, t, hlands, htracked⟩ := hr.tracked h hlists hp hwords
  refine ⟨landing, hlands, ?_⟩
  rw [(hr.apart h).shorten_ofSegments, Schema.pointerOfData?, Schema.locate?,
    Pointer.segments?_ofSegments, Option.bind_some, htracked.found, Option.map_some]
  rfl

/-- The properties of a node: a name, and a list of nodes that has the given type. -/
def nodeProperties (type : Json) : Members := [
  ("name", .obj [("type", .str "string")]),
  ("children", .obj [("type", type), ("items", .obj [("$ref", .str "#")])])]

def nodeOf (type : Json) : Json :=
  .obj [("type", .str "object"), ("properties", .obj (nodeProperties type))]

/-- The fields of a node. -/
theorem field_nodeOf {type : Json} (h : Field (nodeOf type) path place s) :
    (path = [] ∧ place = [] ∧ s = nodeOf type) ∨
      (path = ["properties", "name"] ∧ place = ["name"] ∧ s = .obj [("type", .str "string")]) ∨
      (path = ["properties", "children"] ∧ place = ["children"] ∧
        s = .obj [("type", type), ("items", .obj [("$ref", .str "#")])]) ∨
      (path = ["properties", "children", "items"] ∧ place = ["children", "-"] ∧
        s = .obj [("$ref", .str "#")]) := by
  induction h with
  | root => exact .inl ⟨rfl, rfl, rfl⟩
  | property _ hproperties ht ih =>
      rcases ih with ⟨rfl, rfl, rfl⟩ | ⟨rfl, rfl, rfl⟩ | ⟨rfl, rfl, rfl⟩ | ⟨rfl, rfl, rfl⟩
      · obtain rfl := Option.some.inj hproperties
        simp only [nodeProperties, Table.get?_cons, Table.get?_nil] at ht
        split at ht
        · next hname =>
            subst hname
            exact .inr (.inl ⟨rfl, rfl, (Option.some.inj ht).symm⟩)
        · split at ht
          · next hname =>
              subst hname
              exact .inr (.inr (.inl ⟨rfl, rfl, (Option.some.inj ht).symm⟩))
          · cases ht
      · cases hproperties
      · cases hproperties
      · cases hproperties
  | position _ htuple _ ih =>
      rcases ih with ⟨-, -, rfl⟩ | ⟨-, -, rfl⟩ | ⟨-, -, rfl⟩ | ⟨-, -, rfl⟩ <;> cases htuple
  | items _ hitems ih =>
      rcases ih with ⟨rfl, rfl, rfl⟩ | ⟨rfl, rfl, rfl⟩ | ⟨rfl, rfl, rfl⟩ | ⟨rfl, rfl, rfl⟩
      · cases hitems
      · cases hitems
      · exact .inr (.inr (.inr ⟨rfl, rfl, (Option.some.inj hitems).symm⟩))
      · cases hitems
  | additional _ htuple _ ih =>
      rcases ih with ⟨-, -, rfl⟩ | ⟨-, -, rfl⟩ | ⟨-, -, rfl⟩ | ⟨-, -, rfl⟩ <;> cases htuple

theorem of?_nodeOf_array : ∃ r, of? (nodeOf (.str "array")) = some r ∧
    r.schema = nodeOf (.str "array") ∧ r.schemaFolds = [("/properties/children/items", "")] ∧
    r.dataFolds = [("/children/-", "")] ∧ r.arrays = [("/children", 0)] :=
  ⟨_, rfl, rfl, rfl, rfl, rfl⟩

/-- Where lists of nodes are arrays by name the two tables are in step. -/
theorem inStep_nodeOf (hschema : r.schema = nodeOf (.str "array"))
    (hfolds : r.schemaFolds = [("/properties/children/items", "")])
    (hdata : r.dataFolds = [("/children/-", "")]) (harrays : r.arrays = [("/children", 0)]) :
    r.InStep ∧ r.ListsNamed := by
  have hmoves : ∀ {source target : List String}, Moves r.dataFolds source target →
      source = ["children", "-"] := by
    rintro source target ⟨hm, -⟩
    rw [hdata, List.mem_singleton] at hm
    exact Pointer.ofSegments_injective (Prod.mk.inj hm).1
  refine ⟨⟨?_, ?_, ?_, ?_, ?_⟩, ?_⟩
  · intro path place s hfield
    rw [hschema] at hfield
    rcases field_nodeOf hfield with ⟨-, -, rfl⟩ | ⟨-, -, rfl⟩ | ⟨-, -, rfl⟩ | ⟨-, -, rfl⟩
    · exact ⟨fun harray => (by cases harray), fun _ h => (by cases h)⟩
    · exact ⟨fun harray => (by cases harray), fun _ h => (by cases h)⟩
    · exact ⟨fun _ _ h => (by cases h), fun _ h => (by cases h)⟩
    · exact ⟨fun harray => (by cases harray), fun _ h => (by cases h)⟩
  · intro path members place hm _ hplace
    rw [hschema] at hm hplace ⊢
    have hroot : Field (nodeOf (.str "array")) [] [] (nodeOf (.str "array")) := .root
    have hchildren := hroot.property rfl (show Table.get? _ "children" = _ from rfl)
    have hlisted : (ofSegments path, members) ∈ [
        (ofSegments [], (nodeOf (.str "array")).obj?.getD []),
        (ofSegments ["properties", "name"], [("type", .str "string")]),
        (ofSegments ["properties", "children"],
          [("type", .str "array"), ("items", .obj [("$ref", .str "#")])]),
        (ofSegments ["properties", "children", "items"], [("$ref", .str "#")])] := hm
    simp only [List.mem_cons, Prod.mk.injEq, List.not_mem_nil, or_false,
      Pointer.ofSegments_injective.eq_iff] at hlisted
    rcases hlisted with ⟨rfl, rfl⟩ | ⟨rfl, rfl⟩ | ⟨rfl, rfl⟩ | ⟨rfl, rfl⟩
    · obtain rfl := Option.some.inj hplace
      exact hroot
    · obtain rfl : ["name"] = place := Option.some.inj hplace
      exact hroot.property rfl rfl
    · obtain rfl : ["children"] = place := Option.some.inj hplace
      exact hchildren
    · obtain rfl : ["children", "-"] = place := Option.some.inj hplace
      exact hchildren.items rfl
  · intro path place s target hfield hrefers
    rw [Refers, hfolds, Table.get?_cons] at hrefers
    split at hrefers
    · next hpath =>
        obtain rfl : ["properties", "children", "items"] = path :=
          Pointer.ofSegments_injective hpath
        obtain rfl : [] = target := Pointer.ofSegments_injective (Option.some.inj hrefers)
        exact ⟨[], _, .root, List.nil_prefix⟩
    · cases hrefers
  · intro source target source' target' hm hm' _
    rw [hmoves hm, hmoves hm']
  · intro source target hm entry hentry
    rw [harrays, List.mem_singleton] at hentry
    rw [hmoves hm, hentry]
    decide
  · intro path place s members hfield _ hitems _
    rw [hschema] at hfield
    rcases field_nodeOf hfield with ⟨-, -, rfl⟩ | ⟨-, -, rfl⟩ | ⟨-, -, rfl⟩ | ⟨-, -, rfl⟩
    · cases hitems
    · cases hitems
    · rfl
    · cases hitems

/-- A walk into the name of a child, from wherever a list of nodes is realized. -/
theorem realized_name {type : Json} (hschema : r.schema = nodeOf type)
    (hfolds : r.schemaFolds = [("/properties/children/items", "")])
    (htype : Schema.typeName? (.obj [("type", type), ("items", .obj [("$ref", .str "#")])]) =
      some "array") (keys : List String)
    (hkeys : ∀ key ∈ keys, (Pointer.numeral? key.toList).isSome = true) :
    r.Realized ["properties", "name"] (.obj [("type", .str "string")])
      (keys.flatMap (fun key => ["children", key]) ++ ["name"]) := by
  have hnot : ∀ {path : List String}, ofSegments path ≠ "/properties/children/items" →
      ∀ target, ¬r.Refers path target := by
    intro path hpath target hrefers
    rw [Refers, hfolds, Table.get?_cons, if_neg hpath.symm] at hrefers
    cases hrefers
  have hproperties : (r.schema.get? "properties").bind Json.obj? = some (nodeProperties type) := by
    rw [hschema]
    rfl
  have hwalk : r.Realized [] r.schema (keys.flatMap fun key => ["children", key]) := by
    induction keys using List.reverseRecOn with
    | nil => exact .root
    | append_singleton keys key ih =>
        have habove := ih fun key hk => hkeys key (List.mem_append_left _ hk)
        obtain ⟨index, hindex⟩ := Option.isSome_iff_exists.mp
          (hkeys key (List.mem_append_right _ List.mem_cons_self))
        have hchildren : Table.get? (nodeProperties type) "children" =
            some (.obj [("type", type), ("items", .obj [("$ref", .str "#")])]) := rfl
        have hlist := (habove.property (hnot (by decide)) hproperties hchildren).list
          (hnot (by decide)) htype rfl hindex
        have hrefers : r.Refers ["properties", "children", "items"] [] := by
          rw [Refers, hfolds]
          rfl
        rw [List.flatMap_append, List.flatMap_singleton, ← List.singleton_append,
          ← List.append_assoc]
        exact hlist.jump hrefers rfl
  have hname : Table.get? (nodeProperties type) "name" = some (.obj [("type", .str "string")]) :=
    rfl
  exact hwalk.property (hnot (by decide)) hproperties hname

theorem realized_located_nodes : ∃ r, of? (nodeOf (.str "array")) = some r ∧ r.InStep ∧
    r.ListsNamed ∧ ∃ s,
      r.Realized ["properties", "name"] s ["children", "3", "children", "0", "name"] ∧
      ∃ landing, r.LandsAt ["properties", "name"] landing ∧
        Schema.pointerOfData? r.schema (Pointer.shorten r.dataFolds r.arrays
          (ofSegments ["children", "3", "children", "0", "name"])) = some (ofSegments landing) := by
  obtain ⟨r, h, hschema, hfolds, hdata, harrays⟩ := of?_nodeOf_array
  obtain ⟨hr, hlists⟩ := inStep_nodeOf hschema hfolds hdata harrays
  have hp := realized_name hschema hfolds rfl ["3", "0"] (by decide)
  exact ⟨r, h, hr, hlists, _, hp, realized_located h hr hlists hp (by decide)⟩

/-- A list that may be null is no array by name: its positions stay as they are, and no rule is
for the place of one. -/
theorem not_realized_located :
    ∃ r, of? (nodeOf (.arr [.str "array", .str "null"])) = some r ∧
      (∃ path s, r.Realized path s ["children", "3", "name"]) ∧
      Schema.pointerOfData? r.schema (Pointer.shorten r.dataFolds r.arrays
        (ofSegments ["children", "3", "name"])) = none := by
  obtain ⟨r, h, hschema, hfolds, hdata, harrays⟩ : ∃ r,
      of? (nodeOf (.arr [.str "array", .str "null"])) = some r ∧
      r.schema = nodeOf (.arr [.str "array", .str "null"]) ∧
      r.schemaFolds = [("/properties/children/items", "")] ∧
      r.dataFolds = [("/children/-", "")] ∧ r.arrays = [] := ⟨_, rfl, rfl, rfl, rfl, rfl⟩
  refine ⟨r, h, ⟨_, _, realized_name hschema hfolds rfl ["3"] (by decide)⟩, ?_⟩
  have hapart : Apart r.dataFolds r.arrays := by
    rw [hdata, harrays]
    refine ⟨?_, ?_, ?_, ?_⟩
    · intro rule hm _
      obtain rfl := List.mem_singleton.mp hm
      exact ⟨⟨["children", "-"], rfl⟩, [], rfl⟩
    · intro rule hm _
      obtain rfl := List.mem_singleton.mp hm
      decide
    · intro rule hm _ other hother _ _
      rw [List.mem_singleton.mp hm, List.mem_singleton.mp hother]
    · exact fun _ _ _ entry hentry => absurd hentry List.not_mem_nil
  rw [hapart.shorten_ofSegments, hschema, hdata, harrays]
  decide

end Resolved

end SchemaForm
