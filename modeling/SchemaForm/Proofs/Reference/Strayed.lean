/-
Where the references of an expanded schema lead.

A surviving reference names the place of an object that was being expanded around
it (`Expansion.lands`).  That object is still there and still around it, unless
merging has put the two into different items of a list:

    the target is there and holds the reference  ↔  ¬Strayed place reference

for every reference of the expanded schema (`Resolved.references_land`).  What
merging may do to a reference's place is said by `Parted` and `Pending`: either the
actual path leaves the place at an item of a merged list, or the place ends at the
schema that has the list, where the members of `allOf` are expanded.
-/
import SchemaForm.Proofs.Reference.Landing

namespace SchemaForm

namespace Schema

/-! ## The objects of a schema -/

section Objects

variable {here : String} {object : String × Members}

theorem mem_objectsOfItems {items : List Json} {index : Nat}
    (h : object ∈ objectsOfItems here index items) :
    ∃ i x, items[i]? = some x ∧
      object ∈ objectsFrom (Pointer.item here (index + i)) .schema x := by
  induction items generalizing index with
  | nil => exact absurd h List.not_mem_nil
  | cons x xs ih =>
      rw [objectsOfItems] at h
      cases List.mem_append.mp h with
      | inl h => exact ⟨0, x, rfl, h⟩
      | inr h =>
          obtain ⟨i, y, hy, h⟩ := ih h
          exact ⟨i + 1, y, hy, by rwa [Nat.add_comm i 1, ← Nat.add_assoc]⟩

theorem mem_objectsOfMap {entries : Members} (h : object ∈ objectsOfMap here entries) :
    ∃ name v, (name, v) ∈ entries ∧ object ∈ objectsFrom (Pointer.child here name) .schema v := by
  induction entries with
  | nil => exact absurd h List.not_mem_nil
  | cons entry rest ih =>
      rw [objectsOfMap] at h
      cases List.mem_append.mp h with
      | inl h => exact ⟨entry.1, entry.2, List.mem_cons_self, h⟩
      | inr h =>
          obtain ⟨name, v, hm, h⟩ := ih h
          exact ⟨name, v, List.mem_cons_of_mem _ hm, h⟩

theorem mem_objectsOfMembers {members : Members} (h : object ∈ objectsOfMembers here members) :
    ∃ key v role, (key, v) ∈ members ∧ Role.ofKeyword? key = some role ∧
      object ∈ objectsFrom (Pointer.child here key) role v := by
  induction members with
  | nil => exact absurd h List.not_mem_nil
  | cons entry rest ih =>
      rw [objectsOfMembers] at h
      cases List.mem_append.mp h with
      | inl h =>
          split at h
          · next role hr => exact ⟨entry.1, entry.2, role, List.mem_cons_self, hr, h⟩
          · exact absurd h List.not_mem_nil
      | inr h =>
          obtain ⟨key, v, role, hm, hr, h⟩ := ih h
          exact ⟨key, v, role, List.mem_cons_of_mem _ hm, hr, h⟩

end Objects

/-! ## Paths and places -/

/-- The path passes an item of a merged list, and the place is elsewhere within the
schema that has the list. -/
def Parted (path place : List String) : Prop :=
  ∃ X key, ∃ i : Nat, key ∈ listKeywords ∧ X ++ [key, Nat.repr i] <+: path ∧ X <+: place ∧
    ¬X ++ [key, Nat.repr i] <+: place ∧ ¬place <+: X ++ [key, Nat.repr i]

/-- The path passes an item of a merged list, and the place ends at the schema that
has the list or at its keyword. -/
def Pending (path place : List String) : Prop :=
  ∃ X key, ∃ i : Nat, key ∈ listKeywords ∧ X ++ [key, Nat.repr i] <+: path ∧
    place = if key = "allOf" then X else X ++ [key]

section Paths

variable {path place target : List String} {key : String}

theorem Parted.extend (h : Parted path place) (a b : List String) :
    Parted (path ++ a) (place ++ b) := by
  obtain ⟨X, key, i, hk, hpath, hX, hin, hout⟩ := h
  have hplace := List.prefix_append place b
  refine ⟨X, key, i, hk, hpath.trans (List.prefix_append _ _), hX.trans hplace, ?_, ?_⟩
  · intro hitem
    cases List.prefix_or_prefix_of_prefix hitem hplace with
    | inl h => exact hin h
    | inr h => exact hout h
  · exact fun h => hout (hplace.trans h)

theorem Pending.extend (h : Pending path place) (a : List String) :
    Pending (path ++ a) place := by
  obtain ⟨X, key, i, hk, hpath, hplace⟩ := h
  exact ⟨X, key, i, hk, hpath.trans (List.prefix_append _ _), hplace⟩

/-- Below the item the place no longer is the list's. -/
theorem Pending.child (h : Pending path place) (hall : key ≠ "allOf")
    (hplain : Pointer.position? key = none) : Parted (path ++ [key]) (place ++ [key]) := by
  obtain ⟨X, name, i, hk, hpath, rfl⟩ := h
  have hnumeral : key ≠ Nat.repr i := by
    rintro rfl
    rw [Pointer.position?_repr] at hplain
    cases hplain
  refine ⟨X, name, i, hk, hpath.trans (List.prefix_append _ _), ?_⟩
  split
  · next hname =>
      have hother : key ≠ name := hname ▸ hall
      simp [hother, hother.symm]
  · simp [hnumeral, hnumeral.symm]

theorem Places.spread_from {P : Places} {q : List String} (h : P.spread key q) :
    ∃ p, P p ∧ Places.spread (· = p) key q := by
  unfold Places.spread at h ⊢
  split at h
  · next hk => exact ⟨q, h, by rw [if_pos hk]⟩
  · next hk =>
      rcases h with ⟨p, hp, rfl⟩ | ⟨i, _, ⟨p, hp, rfl⟩, rfl⟩
      · exact ⟨p, hp, by rw [if_neg hk]; exact .inl ⟨p, rfl, rfl⟩⟩
      · exact ⟨p, hp, by rw [if_neg hk]; exact .inr ⟨i, _, ⟨p, rfl, rfl⟩, rfl⟩⟩

theorem spread_single (h : path = place ∨ Parted path place ∨ Pending path place)
    (hk : key ∈ listKeywords) (i : Nat) {q : List String}
    (hq : Places.spread (· = place) key q) :
    path ++ [key, Nat.repr i] = q ∨ Parted (path ++ [key, Nat.repr i]) q ∨
      Pending (path ++ [key, Nat.repr i]) q := by
  have hself : path ++ [key, Nat.repr i] <+: path ++ [key, Nat.repr i] := List.prefix_refl _
  have hplain : Pointer.position? key = none := by
    simp only [listKeywords, List.mem_cons, List.not_mem_nil, or_false] at hk
    rcases hk with rfl | rfl | rfl | rfl | rfl <;> rfl
  unfold Places.spread at hq
  split at hq
  · next hall =>
      obtain rfl := hq
      rcases h with rfl | h | h
      · exact .inr (.inr ⟨path, key, i, hk, hself, (if_pos hall).symm⟩)
      · exact .inr (.inl (by simpa using h.extend [key, Nat.repr i] []))
      · exact .inr (.inr (h.extend _))
  · next hall =>
      have hchild : path ≠ place → Parted (path ++ [key]) (place ++ [key]) := by
        intro hne
        rcases h with h | h | h
        · exact absurd h hne
        · exact h.extend _ _
        · exact h.child hall hplain
      by_cases he : path = place
      · subst he
        rcases hq with ⟨p, rfl, rfl⟩ | ⟨j, _, ⟨p, rfl, rfl⟩, rfl⟩
        · exact .inr (.inr ⟨p, key, i, hk, hself, (if_neg hall).symm⟩)
        · by_cases hij : Nat.repr i = Nat.repr j
          · exact .inl (by simp [hij])
          · refine .inr (.inl ⟨p, key, i, hk, hself, ?_⟩)
            simp [hij, Ne.symm hij]
      · rcases hq with ⟨p, rfl, rfl⟩ | ⟨j, _, ⟨p, rfl, rfl⟩, rfl⟩
        · exact .inr (.inl (by simpa using (hchild he).extend [Nat.repr i] []))
        · exact .inr (.inl (by simpa using (hchild he).extend [Nat.repr i] [Nat.repr j]))

/-- An ancestor of the place is one of the path, unless they part. -/
theorem prefix_or_parted (h : path = place ∨ Parted path place ∨ Pending path place)
    (ht : target <+: place) : target <+: path ∨ Parted path target := by
  rcases h with rfl | ⟨X, key, i, hk, hpath, hX, hin, hout⟩ | ⟨X, key, i, hk, hpath, rfl⟩
  · exact .inl ht
  · by_cases hitem : target <+: X ++ [key, Nat.repr i]
    · exact .inl (hitem.trans hpath)
    · refine .inr ⟨X, key, i, hk, hpath, ?_, fun h => hin (h.trans ht), hitem⟩
      cases List.prefix_or_prefix_of_prefix hX ht with
      | inl h => exact h
      | inr h => exact absurd (h.trans (List.prefix_append _ _)) hitem
  · refine .inl (ht.trans (List.IsPrefix.trans ?_ hpath))
    split
    · exact List.prefix_append _ _
    · simp

end Paths

/-! ## References within anchored values -/

/-- Where a value of some role is at a path, it is so for each of the places. -/
def Traced (role : Role) (v : Json) (P : Places) (path : List String) : Prop :=
  ∀ q, P q → path = q ∨ Parted path q ∨ (role = .schema ∧ v.arr? = none) ∧ Pending path q

/-- The object is within the value at the path, and a reference of it names an ancestor
that still is one, or has been parted from it. -/
def Kept (path : List String) (v : Json) (object : String × Members) : Prop :=
  ∃ more, object.1 = Pointer.ofSegments (path ++ more) ∧ v.follow? more = some (.obj object.2) ∧
    ∀ reference, reference? object.2 = some reference →
      ∃ t, reference = "#" ++ Pointer.ofSegments t ∧
        (t <+: path ++ more ∨ Parted (path ++ more) t)

section Kept

variable {P : Places} {role role' : Role} {v x : Json} {path : List String} {key segment : String}
  {object : String × Members}

theorem Traced.along (h : Traced role v P path) :
    ∀ q, P q → path = q ∨ Parted path q ∨ Pending path q := by
  intro q hq
  rcases h q hq with h | h | ⟨-, h⟩
  · exact .inl h
  · exact .inr (.inl h)
  · exact .inr (.inr h)

theorem Traced.below (h : Traced role v P path) (hv : ¬(role = .schema ∧ v.arr? = none))
    (segment : String) : Traced role' x (P.below segment) (path ++ [segment]) := by
  intro q hq
  obtain ⟨p, hp, rfl⟩ := hq
  rcases h p hp with rfl | h | ⟨h, -⟩
  · exact .inl rfl
  · exact .inr (.inl (h.extend _ _))
  · exact absurd h hv

theorem Traced.keyword (h : Traced role v P path) (hall : key ≠ "allOf")
    (hplain : Pointer.position? key = none) :
    Traced role' x (P.below key) (path ++ [key]) := by
  intro q hq
  obtain ⟨p, hp, rfl⟩ := hq
  rcases h.along p hp with rfl | h | h
  · exact .inl rfl
  · exact .inr (.inl (h.extend _ _))
  · exact .inr (.inl (h.child hall hplain))

theorem Traced.spread (h : Traced role v P path) (hk : key ∈ listKeywords) (i : Nat)
    (hx : x.arr? = none) :
    Traced .schema x (P.spread key) (path ++ [key, Nat.repr i]) := by
  intro q hq
  obtain ⟨p, hp, hq⟩ := Places.spread_from hq
  rcases spread_single (h.along p hp) hk i hq with h | h | h
  · exact .inl h
  · exact .inr (.inl h)
  · exact .inr (.inr ⟨⟨rfl, hx⟩, h⟩)

theorem Kept.above (h : Kept (path ++ [segment]) x object) (hs : v.step? segment = some x) :
    Kept path v object := by
  obtain ⟨more, hplace, hfollow, href⟩ := h
  rw [List.append_assoc] at hplace href
  refine ⟨segment :: more, hplace, ?_, href⟩
  rw [Json.follow?, hs, Option.bind_some, hfollow]

theorem step?_item {items : List Json} {i : Nat} (hx : items[i]? = some x) :
    (Json.arr items).step? (Nat.repr i) = some x := by
  rw [Json.step?, Pointer.position?_repr, Option.bind_some, hx]

theorem objectsFrom_scalar {here : String} (harr : v.arr? = none) (hobj : v.obj? = none) :
    objectsFrom here role v = [] := by
  cases v with
  | arr items => cases harr
  | obj members => cases hobj
  | _ => cases role <;> rfl

theorem objectsFrom_list {here : String} {items : List Json} :
    objectsFrom here role (.arr items) = objectsOfItems here 0 items := by
  cases role <;> rfl

/-- There is no schema object in a list of scalars. -/
theorem arr?_of_mem_objectsFrom {here : String} (hplain : Plain v)
    (hm : object ∈ objectsFrom here role v) : v.arr? = none := by
  cases v with
  | arr items =>
      rw [objectsFrom_list] at hm
      obtain ⟨i, x, hx, hm⟩ := mem_objectsOfItems hm
      obtain ⟨harr, hobj⟩ := hplain items rfl x (List.mem_of_getElem? hx)
      rw [objectsFrom_scalar harr hobj] at hm
      exact absurd hm List.not_mem_nil
  | _ => rfl

/-- An object whose own reference names an ancestor of one of its places. -/
theorem kept_self {members : Members} (h : Traced role v P path)
    (href : ∀ target, ("$ref", .str target) ∈ members → Pointer.isPointer target = true →
      ∃ q t, P q ∧ t <+: q ∧ target = "#" ++ Pointer.ofSegments t) :
    Kept path (.obj members) (Pointer.ofSegments path, members) := by
  refine ⟨[], by rw [List.append_nil], rfl, ?_⟩
  intro reference hreference
  obtain ⟨hget, hpointer⟩ := Option.filter_eq_some_iff.mp hreference
  obtain ⟨target, htarget, hstr⟩ := Option.bind_eq_some_iff.mp hget
  obtain rfl : target = .str reference := by
    cases target with
    | str text => exact congrArg Json.str (Option.some.inj hstr)
    | _ => cases hstr
  obtain ⟨q, t, hq, ht, rfl⟩ := href reference (Table.mem_of_get? htarget) hpointer
  rw [List.append_nil]
  exact ⟨t, rfl, prefix_or_parted (h.along q hq) ht⟩

theorem Anchored.kept (h : Anchored P role v) (hpath : Traced role v P path)
    (hm : object ∈ objectsFrom (Pointer.ofSegments path) role v) : Kept path v object := by
  induction h generalizing path with
  | list hlists _ ih =>
      rw [objectsFrom_list] at hm
      obtain ⟨i, x, hx, hm⟩ := mem_objectsOfItems hm
      rw [Nat.zero_add, Pointer.item_ofSegments] at hm
      have hbelow : Traced .schema x _ _ :=
        hpath.below (fun h => Option.some_ne_none _ h.2) (Nat.repr i)
      exact (ih i x hx hbelow hm).above (step?_item hx)
  | map hn _ _ ih =>
      obtain ⟨name, w, hw, hm⟩ := mem_objectsOfMap hm
      rw [Pointer.child_ofSegments] at hm
      have hbelow : Traced .schema w _ _ := hpath.below (fun h => Role.noConfusion h.1) name
      exact (ih name w hw hbelow hm).above (Table.get?_of_mem hn hw)
  | schema hn hplain hall href hlists _ _ ihitems ihother =>
      rcases List.mem_cons.mp hm with rfl | hm
      · exact kept_self hpath href
      · obtain ⟨key, w, role, hw, hr, hm⟩ := mem_objectsOfMembers hm
        rw [Pointer.child_ofSegments] at hm
        refine Kept.above ?_ (Table.get?_of_mem hn hw)
        by_cases hlist : key ∈ listKeywords ∧ ∃ items, w = .arr items
        · obtain ⟨hk, items, rfl⟩ := hlist
          rw [objectsFrom_list] at hm
          obtain ⟨i, x, hx, hm⟩ := mem_objectsOfItems hm
          have hxs := List.mem_of_getElem? hx
          rw [Nat.zero_add, Pointer.item_ofSegments, List.append_assoc] at hm
          have hx' := arr?_of_mem_objectsFrom (hlists key items hk hw x hxs) hm
          have hkept := ihitems key items hk hw x hxs (hpath.spread hk i hx') hm
          refine Kept.above ?_ (step?_item hx)
          rwa [List.append_assoc]
        · have harr : key ∈ listKeywords → w.arr? = none := by
            intro hk
            cases w with
            | arr items => exact absurd ⟨hk, items, rfl⟩ hlist
            | _ => rfl
          have hne : key ≠ "allOf" := by
            rintro rfl
            rw [objectsFrom_scalar (harr (by decide)) (hall w hw)] at hm
            exact List.not_mem_nil hm
          exact ihother key w role hw hr harr (hpath.keyword hne (hplain key w hw)) hm
  | scalar harr hobj =>
      rw [objectsFrom_scalar harr hobj] at hm
      exact absurd hm List.not_mem_nil

end Kept

end Schema

namespace Resolved

open Expansion (Regular Visit)
open Schema (listKeywords)

/-! ## References of a resolved document -/

/-- The place is within an item of a list that merging puts together, and the
reference names something else within the schema that has the list. -/
def Strayed (place reference : String) : Prop :=
  ∃ schema key, ∃ i : Nat, key ∈ listKeywords ∧
    Pointer.covers (Pointer.item (Pointer.child schema key) i) place = true ∧
    Pointer.covers schema reference = true ∧
    Pointer.covers (Pointer.item (Pointer.child schema key) i) reference = false ∧
    Pointer.covers reference (Pointer.item (Pointer.child schema key) i) = false

theorem note_schema (r : Resolved) (object : String × Members) :
    (r.note object).schema = r.schema := by
  unfold note noteArray noteReference
  repeat' split
  all_goals rfl

theorem foldl_note_schema (objects : List (String × Members)) (r : Resolved) :
    (objects.foldl note r).schema = r.schema := by
  induction objects generalizing r with
  | nil => rfl
  | cons object objects ih => rw [List.foldl_cons, ih, note_schema]

theorem run?_of_of? {document : Json} {r : Resolved} (h : of? document = some r) :
    Expansion.run? document (Graph.of document) document "" = some r.schema := by
  obtain ⟨schema, hschema, h⟩ := Option.bind_eq_some_iff.mp h
  obtain ⟨library, -, h⟩ := Option.bind_eq_some_iff.mp h
  obtain rfl := Option.some.inj h
  rw [foldl_note_schema]
  exact hschema

theorem kept_of_of? {document : Json} {r : Resolved} (hroot : document.Distinct)
    (hregular : Regular document) (h : of? document = some r) {object : String × Members}
    (hm : object ∈ Schema.objects r.schema) : Schema.Kept [] r.schema object := by
  have hsited : Expansion.Sited [] [] := fun frame hf => absurd hf List.not_mem_nil
  obtain ⟨hanchored, -⟩ := Expansion.lands hroot hregular _ .refl hsited (run?_of_of? h)
  refine hanchored.kept ?_ hm
  intro q hq
  exact .inl hq.symm

theorem strayed_of_parted {path target : List String} (h : Schema.Parted path target) :
    Strayed (Pointer.ofSegments path) ("#" ++ Pointer.ofSegments target) := by
  obtain ⟨X, key, i, hk, hpath, hX, hin, hout⟩ := h
  refine ⟨Pointer.ofSegments X, key, i, hk, ?_, ?_, ?_, ?_⟩
  all_goals
    simp only [Pointer.child_ofSegments, Pointer.item_ofSegments, Pointer.covers_mark,
      Pointer.mark_covers, List.append_assoc, List.singleton_append]
  · exact Pointer.covers_ofSegments.mpr hpath
  · exact Pointer.covers_ofSegments.mpr hX
  · exact Bool.eq_false_iff.mpr fun h => hin (Pointer.covers_ofSegments.mp h)
  · exact Bool.eq_false_iff.mpr fun h => hout (Pointer.covers_ofSegments.mp h)

/-- **Where a surviving reference leads.**  Its target is there and is an ancestor of
the place where the reference stands, or that place itself, unless the reference has
strayed. -/
theorem references_land {document : Json} {r : Resolved} (hroot : document.Distinct)
    (hregular : Regular document) (h : of? document = some r) {place reference : String}
    {members : Members} (hm : (place, members) ∈ Schema.objects r.schema)
    (href : Schema.reference? members = some reference) :
    ((r.schema.at? reference).isSome = true ∧ Pointer.covers reference place = true) ↔
      ¬Strayed place reference := by
  obtain ⟨path, hplace, hfollow, hkept⟩ := kept_of_of? hroot hregular h hm
  obtain ⟨t, hreference, ht⟩ := hkept reference href
  obtain rfl : place = Pointer.ofSegments path := hplace
  constructor
  · rintro ⟨-, hcovers⟩ ⟨schema, key, i, -, hitem, -, hin, hout⟩
    cases Pointer.covers_total hcovers hitem with
    | inl hc => exact Bool.false_ne_true (hout.symm.trans hc)
    | inr hc => exact Bool.false_ne_true (hin.symm.trans hc)
  · intro hstays
    subst hreference
    rcases ht with ⟨rest, hrest⟩ | hparted
    · have hpath : t ++ rest = path := hrest
      constructor
      · rw [Json.at?, Pointer.segments?_mark, Option.bind_some]
        rw [← hpath, Json.follow?_append] at hfollow
        obtain ⟨target, htarget, -⟩ := Option.bind_eq_some_iff.mp hfollow
        rw [htarget]
        rfl
      · rw [Pointer.mark_covers]
        exact Pointer.covers_ofSegments.mpr ⟨rest, hpath⟩
    · exact absurd (strayed_of_parted hparted) hstays

/-- A recursive document of the shape of a schema. -/
def selfReference : Json := .obj [("properties", .obj [("a", .obj [("$ref", .str "#")])])]

theorem regular_selfReference : Regular selfReference := by
  let map : Visit := ⟨"/properties", .map, .obj [("a", .obj [("$ref", .str "#")])]⟩
  let leaf : Visit := ⟨"/properties/a", .schema, .obj [("$ref", .str "#")]⟩
  let text : Visit := ⟨"/properties/a/$ref", .schema, .str "#"⟩
  have hbelow : Visit.below ⟨"", .schema, selfReference⟩ = [map] := rfl
  have hmap : map.below = [leaf] := rfl
  have hleaf : leaf.below = [text] := rfl
  have hjump : leaf.jump? selfReference = some ⟨"", .schema, selfReference⟩ := rfl
  apply Expansion.regular_of_closed [⟨"", .schema, selfReference⟩, map, leaf, text]
  · exact List.mem_cons_self
  · simp only [List.forall_mem_cons, hbelow, hmap, hleaf]
    simp [Visit.below, text]
  · simp only [List.forall_mem_cons, hjump]
    simp [Visit.jump?, text, map, selfReference, Schema.reference?, Table.get?, Schema.Plain]
  · simp [Visit.Regular, map, leaf, text, selfReference, Schema.Plain]
    decide

theorem references_land_selfReference :
    selfReference.Distinct ∧ Regular selfReference ∧ ∃ r, of? selfReference = some r ∧
      ("/properties/a", [("$ref", .str "#")]) ∈ Schema.objects r.schema ∧
      (((r.schema.at? "#").isSome = true ∧ Pointer.covers "#" "/properties/a" = true) ↔
        ¬Strayed "/properties/a" "#") := by
  have hdistinct : selfReference.Distinct := by
    simp [selfReference, Json.Distinct, Json.DistinctMembers, Table.names]
  obtain ⟨r, hr, hobjects⟩ : ∃ r, of? selfReference = some r ∧ Schema.objects r.schema =
      [("", [("properties", .obj [("a", .obj [("$ref", .str "#")])])]),
        ("/properties/a", [("$ref", .str "#")])] := ⟨_, rfl, rfl⟩
  have hm : ("/properties/a", [("$ref", .str "#")]) ∈ Schema.objects r.schema := by
    rw [hobjects]
    exact List.mem_cons_of_mem _ List.mem_cons_self
  exact ⟨hdistinct, regular_selfReference, r, hr, hm,
    references_land hdistinct regular_selfReference hr hm rfl⟩

/-- A schema of two parts that stay apart, each of them expanded at the place of the
whole; the first one is recursive. -/
def partedSchema : Json :=
  .obj [("allOf", .arr [
    .obj [("pattern", .str "a"), ("properties", .obj [("c", .obj [("properties",
      .obj [("d", .obj [("$ref", .str "#/allOf/0/properties/c")])])])])],
    .obj [("pattern", .str "b")]])]

/-- Its first part, expanded. -/
def partedFirst : Members :=
  [("pattern", .str "a"), ("properties", .obj [("c", .obj [("properties",
    .obj [("d", .obj [("$ref", .str "#/properties/c")])])])])]

def partedSecond : Members := [("pattern", .str "b")]

theorem finish_parted :
    Expansion.finish (.obj [("allOf", .arr [.obj partedFirst, .obj partedSecond])]) =
      Schema.sideBySide (.obj partedFirst) (.obj partedSecond) := by
  have hnone : Schema.both? "pattern" (.str "a") (.str "b") = none := by
    rw [Schema.both?, Schema.combineKeyword_of_not_alternative (by decide)]
    rfl
  have hmerge : Schema.mergeAll [.obj partedFirst, .obj partedSecond] =
      Schema.sideBySide (.obj partedFirst) (.obj partedSecond) := by
    rw [Schema.mergeAll_pair]
    exact Schema.merge_conflict rfl hnone trivial rfl
  show Schema.moveRequired (Schema.mergeAll [.obj partedFirst, .obj partedSecond]) = _
  rw [hmerge]
  rfl

theorem not_references_land :
    ∃ r members, of? partedSchema = some r ∧
      ("/allOf/0/properties/c/properties/d", members) ∈ Schema.objects r.schema ∧
      Schema.reference? members = some "#/properties/c" ∧
      r.schema.at? "#/properties/c" = none ∧
      Pointer.covers "#/properties/c" "/allOf/0/properties/c/properties/d" = false := by
  obtain ⟨r, hr⟩ : ∃ r, of? partedSchema = some r := ⟨_, rfl⟩
  have hrun : Expansion.run? partedSchema (Graph.of partedSchema) partedSchema "" =
      some (Expansion.finish (.obj [("allOf", .arr [.obj partedFirst, .obj partedSecond])])) := rfl
  rw [finish_parted] at hrun
  have hschema := Option.some.inj ((run?_of_of? hr).symm.trans hrun)
  refine ⟨r, [("$ref", .str "#/properties/c")], hr, ?_, rfl, ?_, by decide⟩
  · rw [hschema]
    exact List.mem_of_getElem? (i := 3) rfl
  · rw [hschema]
    rfl

end Resolved

end SchemaForm
