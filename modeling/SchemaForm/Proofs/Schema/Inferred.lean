/-
What an inferred schema says about its value.

The items of a list that share one inferred type get one item schema, into which the schemas of
all items are written one after the other.  Schemas of one type have the same keywords, so that the
last one replaces all others (`overlay_inferItems`): whatever the position, what the inferred schema
shows is the last item (`shown?`).  Looking a place up finds the schema of what is shown there,

    locateFrom? (inferFrom demand value) keys  ~  (shown? value keys).map (inferFrom demand)

and so the schema of a place names the type of the value there exactly if the value that is shown
has the same type (`inferred_describes_iff`).  It does so everywhere in a value whose lists hold
items that are inferred alike (`Even.described`).
-/
import SchemaForm.Proofs.Schema.Retraced
import SchemaForm.Proofs.Table
import SchemaForm.Schema.Inference

namespace SchemaForm

namespace Schema

variable {demand : Bool} {value d v : Json} {items : List Json} {members : Members}
  {key name pointer : String} {keys : List String}

/-! ## The members of an inferred schema -/

/-- The members of an inferred schema. -/
def inferredMembers (demand : Bool) (value : Json) : Members :=
  ((inferFrom demand value).obj?).getD []

theorem inferFrom_eq (demand : Bool) (value : Json) :
    inferFrom demand value = .obj (inferredMembers demand value) := by
  cases value <;> rfl

/-- The keywords of an inferred schema, by its type. -/
def inferredKeywords (demand : Bool) (type : String) : List String :=
  "type" ::
    if type = "object" then "properties" :: if demand then ["required"] else []
    else if type = "array" then "items" :: if demand then ["minItems"] else []
    else []

theorem names_inferredMembers (demand : Bool) (value : Json) :
    Table.names (inferredMembers demand value) =
      inferredKeywords demand (inferredType value) := by
  cases demand <;> cases value <;> rfl

theorem nodup_inferredKeywords (demand : Bool) (type : String) :
    (inferredKeywords demand type).Nodup := by
  unfold inferredKeywords
  cases demand <;> (split_ifs <;> decide)

theorem inferItems_eq (demand : Bool) (items : List Json) :
    inferItems demand items = items.map (inferFrom demand) := by
  induction items with
  | nil => rfl
  | cons x xs ih => rw [inferItems, ih, List.map_cons]

theorem get?_inferMembers (demand : Bool) (members : Members) (key : String) :
    Table.get? (inferMembers demand members) key =
      (Table.get? members key).map (inferFrom demand) := by
  induction members with
  | nil => rfl
  | cons entry rest ih =>
      obtain ⟨name, value⟩ := entry
      rw [inferMembers, Table.get?_cons, Table.get?_cons, ih]
      split <;> rfl

/-- Of the schemas of items that share a type the last one is left. -/
theorem overlay_inferItems (h : ∀ x ∈ items, inferredType x = name) :
    overlay (inferItems demand items) =
      (items.getLast?.map (inferredMembers demand)).getD [] := by
  rw [inferItems_eq]
  induction items using List.reverseRecOn with
  | nil => rfl
  | append_singleton items x ih =>
      obtain ⟨hitems, hx⟩ := List.forall_mem_append.mp h
      have hx := hx x (List.mem_singleton_self x)
      rw [overlay, List.map_append, List.map_singleton, List.foldl_concat, ← overlay, ih hitems,
        List.getLast?_concat, Option.map_some, Option.getD_some]
      show Table.insertAll _ (inferredMembers demand x) = inferredMembers demand x
      refine Table.insertAll_of_names ?_ ?_
      · rw [names_inferredMembers]
        exact nodup_inferredKeywords _ _
      · cases hlast : items.getLast? with
        | none => exact List.nil_prefix
        | some last =>
            have htype := hitems last (List.mem_of_getLast? hlast)
            rw [Option.map_some, Option.getD_some, names_inferredMembers, names_inferredMembers,
              htype, hx]

theorem uniform_iff : uniform items = true ↔
    items ≠ [] ∧ ∃ name, ∀ x ∈ items, inferredType x = name := by
  cases items with
  | nil => simp [uniform]
  | cons x xs =>
      simp only [uniform, List.all_eq_true, beq_iff_eq, ne_eq, List.cons_ne_nil, not_false_eq_true,
        true_and, List.forall_mem_cons]
      constructor
      · exact fun h => ⟨_, rfl, h⟩
      · rintro ⟨_, hx, h⟩ y hy
        exact (h y hy).trans hx.symm

/-- One schema describes the items that share a type: that of the last one. -/
theorem exists_last (demand : Bool) (h : uniform items = true) :
    ∃ last, items.getLast? = some last ∧
      Json.obj (overlay (inferItems demand items)) = inferFrom demand last := by
  obtain ⟨hne, name, hname⟩ := uniform_iff.mp h
  obtain ⟨last, hlast⟩ := List.getLast?_isSome.mpr hne |> Option.isSome_iff_exists.mp
  refine ⟨last, hlast, ?_⟩
  rw [overlay_inferItems hname, hlast, inferFrom_eq, Option.map_some, Option.getD_some]

/-! ## What is shown -/

/-- The value that an inferred schema shows under a key: the last item of a list whose items share
one inferred type, whatever the position, and else what is there. -/
def shownStep? : Json → String → Option Json
  | .obj members, key => Table.get? members key
  | .arr items, key =>
      if uniform items then if isPosition key then items.getLast? else none
      else (Pointer.index? key).bind fun i => items[i]?
  | _, _ => none

/-- The value that an inferred schema shows at the end of a path. -/
def shown? (value : Json) : List String → Option Json
  | [] => some value
  | key :: rest => (shownStep? value key).bind fun next => shown? next rest

/-- The value that an inferred schema shows at a pointer. -/
def shownAt? (value : Json) (pointer : String) : Option Json :=
  (Pointer.segments? pointer).bind (shown? value)

/-- The declared schema, if it is one. -/
def Found.declared? : Found → Option Json
  | .declared _ schema => some schema
  | .free _ => none

theorem Found.declared?_under (above : List String) (found : Found) :
    (found.under above).declared? = found.declared? := by
  cases found <;> rfl

theorem stepInto?_infer_obj (demand : Bool) (members : Members) (key : String) :
    (stepInto? (inferFrom demand (.obj members)) key).bind Found.declared? =
      (shownStep? (.obj members) key).map (inferFrom demand) := by
  generalize hs : inferFrom demand (.obj members) = s
  have htype : s.get? "type" = some (.str "object") := by subst hs; rfl
  have hproperties : s.get? "properties" = some (.obj (inferMembers demand members)) := by
    subst hs; rfl
  have hitems : s.get? "items" = none := by subst hs; cases demand <;> rfl
  have hmore : s.get? "additionalProperties" = none := by subst hs; cases demand <;> rfl
  have hread : ¬(isArrayLike s = true ∧ isPosition key = true) := by
    simp [isArrayLike, isTyped, Json.has, htype, hitems, Json.str?]
  have hobject : (isTyped s "object" || s.has "properties") = true := by
    rw [Json.has, hproperties]
    exact Bool.or_true _
  have hopen : additional? s "additionalProperties" = some (.free ["additionalProperties"]) := by
    rw [additional?, hmore]
  rw [stepInto?_of_not_position hread, if_pos hobject, propertyAt?, hproperties, Option.bind_some,
    Json.get?, shownStep?, ← get?_inferMembers]
  cases Table.get? (inferMembers demand members) key with
  | none =>
      dsimp only
      rw [hopen]
      rfl
  | some property => rfl

theorem stepInto?_infer_arr (demand : Bool) (items : List Json) (key : String) :
    (stepInto? (inferFrom demand (.arr items)) key).bind Found.declared? =
      (shownStep? (.arr items) key).map (inferFrom demand) := by
  generalize hs : inferFrom demand (.arr items) = s
  have htype : isTyped s "array" = true := by subst hs; rfl
  have hitems : s.get? "items" = some (if uniform items then
      .obj (overlay (inferItems demand items)) else .arr (inferItems demand items)) := by
    subst hs; rfl
  have hobject : (isTyped s "object" || s.has "properties") = false := by
    subst hs; cases demand <;> rfl
  have hopen : additional? s "additionalItems" = some (.free ["additionalItems"]) := by
    subst hs; cases demand <;> rfl
  have harray : isArrayLike s = true := by rw [isArrayLike, htype, Bool.true_or]
  rw [shownStep?]
  by_cases hposition : isPosition key = true
  · rw [stepInto?_of_position harray hposition, itemAt?, hitems, hopen]
    cases huniform : uniform items with
    | true =>
        obtain ⟨last, hlast, he⟩ := exists_last demand huniform
        rw [if_pos rfl, if_pos rfl, if_pos hposition, hlast, Option.map_some, ← he]
        rfl
    | false =>
        rw [if_neg Bool.false_ne_true, if_neg Bool.false_ne_true, inferItems_eq]
        cases Pointer.index? key with
        | none => rfl
        | some i =>
            dsimp only
            rw [Option.bind_some, Option.bind_some, List.getElem?_map]
            cases items[i]? <;> rfl
  · have hindex : Pointer.index? key = none := by
      rw [isPosition, Bool.or_eq_true, not_or] at hposition
      exact Option.not_isSome_iff_eq_none.mp hposition.1
    rw [stepInto?_of_not_position fun h => hposition h.2, hobject, if_neg Bool.false_ne_true,
      if_neg hposition, hindex]
    cases uniform items <;> rfl

/-- A step into an inferred schema comes to the schema of what is shown. -/
theorem stepInto?_inferFrom (demand : Bool) (value : Json) (key : String) :
    (stepInto? (inferFrom demand value) key).bind Found.declared? =
      (shownStep? value key).map (inferFrom demand) := by
  cases value with
  | obj members => exact stepInto?_infer_obj demand members key
  | arr items => exact stepInto?_infer_arr demand items key
  | _ => rfl

/-- A lookup in an inferred schema comes to the schema of what is shown. -/
theorem locateFrom?_inferFrom (demand : Bool) (value : Json) (keys : List String) :
    (locateFrom? (inferFrom demand value) keys).bind Found.declared? =
      (shown? value keys).map (inferFrom demand) := by
  induction keys generalizing value with
  | nil => rfl
  | cons key rest ih =>
      have hstep := stepInto?_inferFrom demand value key
      rw [locateFrom?, shown?]
      cases hshown : shownStep? value key with
      | none =>
          rw [hshown] at hstep
          cases hinto : stepInto? (inferFrom demand value) key with
          | none => rfl
          | some found =>
              rw [hinto] at hstep
              cases found with
              | declared path next => cases hstep
              | free path => rfl
      | some next =>
          rw [hshown] at hstep
          obtain ⟨found, hinto, hfound⟩ := Option.bind_eq_some_iff.mp hstep
          cases found with
          | free path => cases hfound
          | declared path schema =>
              obtain rfl := Option.some.inj hfound
              rw [hinto, Option.bind_some, ← ih next]
              show ((locateFrom? _ rest).map (·.under path)).bind Found.declared? = _
              cases locateFrom? (inferFrom demand next) rest with
              | none => rfl
              | some found => exact Found.declared?_under path found

/-! ## The document -/

/-- The name of the draft at the top changes no lookup. -/
theorem stepInto?_ofData (value : Json) (demand : Bool) (key : String) :
    stepInto? (ofData value demand) key = stepInto? (inferFrom demand value) key := by
  have hget : ∀ keyword, keyword ≠ "$schema" →
      (ofData value demand).get? keyword = (inferFrom demand value).get? keyword := by
    intro keyword hne
    rw [ofData, inferFrom_eq]
    exact if_neg (Ne.symm hne)
  simp only [stepInto?, itemAt?, propertyAt?, additional?, isTyped, Json.has,
    hget "type" (by decide), hget "items" (by decide), hget "properties" (by decide),
    hget "additionalItems" (by decide), hget "additionalProperties" (by decide)]
  rfl

theorem get?_type_inferFrom (demand : Bool) (value : Json) :
    (inferFrom demand value).get? "type" = some (.str (inferredType value)) := by
  cases value <;> rfl

theorem isTyped_inferFrom (demand : Bool) (value : Json) (name : String) :
    isTyped (inferFrom demand value) name = true ↔ inferredType value = name := by
  rw [isTyped, get?_type_inferFrom, Option.bind_some, Json.str?, beq_iff_eq, Option.some.injEq]

theorem isTyped_ofData (value : Json) (demand : Bool) (name : String) :
    isTyped (ofData value demand) name = isTyped (inferFrom demand value) name := by
  rw [ofData, inferFrom_eq]
  rfl

/-- Only a declared schema names a type. -/
theorem typed_iff (found : Option Found) (name : String) :
    (∃ schema, found.map Found.schema = some schema ∧ isTyped schema name = true) ↔
      ∃ schema, found.bind Found.declared? = some schema ∧ isTyped schema name = true := by
  cases found with
  | none => simp
  | some found =>
      cases found with
      | declared path schema => exact Iff.rfl
      | free path =>
          refine ⟨?_, ?_⟩
          · rintro ⟨schema, he, htyped⟩
            obtain rfl := Option.some.inj he
            cases htyped
          · rintro ⟨schema, he, -⟩
            cases he

/-- What a lookup in an inferred document finds has the type of what is shown. -/
theorem typed_ofData_iff (value : Json) (demand : Bool) (keys : List String) (name : String) :
    (∃ schema, (locateFrom? (ofData value demand) keys).map Found.schema = some schema ∧
        isTyped schema name = true) ↔
      (shown? value keys).map inferredType = some name := by
  have hshown : (∃ schema, (locateFrom? (inferFrom demand value) keys).map Found.schema =
      some schema ∧ isTyped schema name = true) ↔
        (shown? value keys).map inferredType = some name := by
    rw [typed_iff, locateFrom?_inferFrom]
    simp only [Option.map_eq_some_iff]
    constructor
    · rintro ⟨schema, ⟨w, hw, rfl⟩, htyped⟩
      exact ⟨w, hw, (isTyped_inferFrom demand w name).mp htyped⟩
    · rintro ⟨w, hw, htype⟩
      exact ⟨_, ⟨w, hw, rfl⟩, (isTyped_inferFrom demand w name).mpr htype⟩
  cases keys with
  | nil =>
      rw [← hshown]
      simp only [locateFrom?, Option.map_some, Found.schema, Option.some.injEq,
        exists_eq_left', isTyped_ofData]
  | cons key rest =>
      rw [← hshown, locateFrom?, stepInto?_ofData, ← locateFrom?]

/-! ## Items that are inferred alike -/

/-- Every list in the value fits a word, and if its items share a type they are inferred alike. -/
def Even (demand : Bool) (value : Json) : Prop :=
  ∀ keys items, value.follow? keys = some (.arr items) → items.length ≤ Number.wordLimit ∧
    (uniform items = true → ∀ x ∈ items, ∀ y ∈ items, inferFrom demand x = inferFrom demand y)

theorem Even.step {next : Json} (h : Even demand value) (hnext : value.step? key = some next) :
    Even demand next := by
  intro keys items hitems
  refine h (key :: keys) items ?_
  rw [Json.follow?, hnext, Option.bind_some, hitems]

/-- Values that are inferred alike show what is inferred alike. -/
theorem shown?_congr {x y : Json} (h : inferFrom demand x = inferFrom demand y)
    (keys : List String) :
    (shown? x keys).map (inferFrom demand) = (shown? y keys).map (inferFrom demand) := by
  rw [← locateFrom?_inferFrom, ← locateFrom?_inferFrom, h]

/-- What is shown for a value is inferred like the value. -/
theorem Even.shown (h : Even demand value) (hv : value.follow? keys = some v) :
    (shown? value keys).map (inferFrom demand) = some (inferFrom demand v) := by
  induction keys generalizing value with
  | nil =>
      obtain rfl := Option.some.inj hv
      rfl
  | cons key rest ih =>
      obtain ⟨next, hnext, hv⟩ := Option.bind_eq_some_iff.mp hv
      have hrest := ih (h.step hnext) hv
      rw [shown?]
      cases value with
      | obj members =>
          have hshown : shownStep? (.obj members) key = some next := hnext
          rw [hshown]
          exact hrest
      | arr items =>
          obtain ⟨i, hi, hitem⟩ := Option.bind_eq_some_iff.mp hnext
          obtain ⟨hlength, halike⟩ := h [] items rfl
          obtain ⟨hlt, -⟩ := List.getElem?_eq_some_iff.mp hitem
          have hindex : Pointer.index? key = some i := by
            rw [Pointer.eq_repr_of_position? hi]
            exact index?_of_lt (Nat.lt_of_lt_of_le hlt hlength)
          have hposition : isPosition key = true := by
            rw [isPosition, hindex]
            rfl
          cases huniform : uniform items with
          | true =>
              obtain ⟨last, hlast, -⟩ := exists_last demand huniform
              have hshown : shownStep? (.arr items) key = some last := by
                rw [shownStep?, if_pos huniform, if_pos hposition, hlast]
              have hsame := halike huniform last (List.mem_of_getLast? hlast) next
                (List.mem_of_getElem? hitem)
              rw [hshown, Option.bind_some, shown?_congr hsame, hrest]
          | false =>
              have hshown : shownStep? (.arr items) key = some next := by
                rw [shownStep?, huniform, if_neg Bool.false_ne_true, hindex, Option.bind_some,
                  hitem]
              rw [hshown]
              exact hrest
      | _ => cases hnext

/-- **Everything is described where items are inferred alike.** -/
theorem Even.described (h : Even demand d) (hv : d.at? pointer = some v) :
    ∃ schema, atData? (ofData d demand) pointer = some schema ∧
      isTyped schema (inferredType v) = true := by
  obtain ⟨keys, hkeys, hfollow⟩ := Option.bind_eq_some_iff.mp hv
  obtain ⟨w, hw, he⟩ := Option.map_eq_some_iff.mp (h.shown hfollow)
  have htype : inferredType w = inferredType v := by
    rw [← isTyped_inferFrom demand, he, isTyped_inferFrom]
  rw [atData?, locate?, hkeys, Option.bind_some, typed_ofData_iff, hw, Option.map_some, htype]

/-! ## What is described -/

/-- **What an inferred schema describes.**  The schema that is found at the pointer of a value names
the inferred type of the value exactly if what is shown there has that type. -/
theorem inferred_describes_iff (demand : Bool) (hv : d.at? pointer = some v) :
    (∃ schema, atData? (ofData d demand) pointer = some schema ∧
        isTyped schema (inferredType v) = true) ↔
      (shownAt? d pointer).map inferredType = (d.at? pointer).map inferredType := by
  obtain ⟨keys, hkeys, -⟩ := Option.bind_eq_some_iff.mp hv
  rw [hv, Option.map_some, shownAt?, atData?, locate?, hkeys, Option.bind_some, Option.bind_some]
  exact typed_ofData_iff d demand keys (inferredType v)

/-- The last of two rows is shown for both of them, and it has no second field. -/
theorem inferred_describes_iff_rows :
    let rows : Json := .arr [.obj [("a", Json.nat 1), ("b", .bool true)], .obj [("a", Json.nat 2)]]
    rows.at? "/0/a" = some (Json.nat 1) ∧
      (∃ schema, atData? (ofData rows true) "/0/a" = some schema ∧
        isTyped schema "number" = true) ∧
      rows.at? "/0/b" = some (.bool true) ∧
      ¬∃ schema, atData? (ofData rows true) "/0/b" = some schema ∧
        isTyped schema "boolean" = true := by
  intro rows
  have ha : rows.at? "/0/a" = some (Json.nat 1) := rfl
  have hb : rows.at? "/0/b" = some (.bool true) := rfl
  exact ⟨ha, (inferred_describes_iff true ha).mpr (by decide), hb,
    fun h => absurd ((inferred_describes_iff true hb).mp h) (by decide)⟩

/-- An inferred schema does not describe all of its value: the field of the first item is missing
from the schema of the items. -/
theorem not_inferred_describes : ¬∀ (d : Json) (demand : Bool) (pointer : String) (v : Json),
    d.at? pointer = some v → ∃ schema, atData? (ofData d demand) pointer = some schema ∧
      isTyped schema (inferredType v) = true := by
  intro h
  have hv : (Json.arr [.obj [("a", Json.nat 1)], .obj [("b", Json.nat 2)]]).at? "/0/a" =
      some (Json.nat 1) := rfl
  obtain ⟨schema, hfound, htyped⟩ := h _ false _ _ hv
  obtain rfl : Json.obj [] = schema := Option.some.inj hfound
  exact absurd htyped (by decide)

end Schema

end SchemaForm
