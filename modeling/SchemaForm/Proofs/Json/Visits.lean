/-
Visiting every part of a value.

A value holds other values, each under the segment that leads to it (`Json.contents`), and its parts
are what the way down along segments leads to (`Json.Part`).  Both walks go through the contents in
order: one visits a value before what it holds, and the other one after it.  So each visits every
part once, at the pointer of the way to it (`walks_visit_parts`), the first of them all but what
lies below a pointer that is skipped.
-/
import Mathlib.Data.List.Nodup
import Mathlib.Data.List.Perm.Basic
import SchemaForm.Proofs.Json.Places

namespace SchemaForm

namespace Pointer

/-- The place of the upper pointer contains the place of the lower one, and is not it. -/
def Above (upper lower : String) : Prop :=
  ∃ segments more, upper = ofSegments segments ∧ lower = ofSegments (segments ++ more) ∧ more ≠ []

theorem Above.covers {upper lower : String} (h : Above upper lower) :
    covers upper lower = true := by
  obtain ⟨segments, more, rfl, rfl, -⟩ := h
  exact covers_ofSegments.mpr (List.prefix_append segments more)

theorem ofSegments_nil : ofSegments [] = "" := rfl

/-- What is below one of two siblings contains nothing of what is below the other. -/
theorem covers_siblings {base : List String} {key other x y : String} (hne : key ≠ other)
    (hx : covers (ofSegments (base ++ [key])) x = true)
    (hy : covers (ofSegments (base ++ [other])) y = true) : covers x y = false := by
  rw [Bool.eq_false_iff]
  intro hxy
  have hsame : base ++ [key] = base ++ [other] := by
    rcases covers_total (covers_trans hx hxy) hy with h | h
    · exact (covers_ofSegments.mp h).eq_of_length (by simp)
    · exact ((covers_ofSegments.mp h).eq_of_length (by simp)).symm
  exact hne (List.singleton_inj.mp (List.append_cancel_left hsame))

end Pointer

namespace Json

open Pointer (ofSegments)

/-! ## What a value holds -/

/-- The values that a value holds, each under the segment that leads to it. -/
def contents : Json → Members
  | .arr items => items.zipIdx.map fun p => (Nat.repr p.2, p.1)
  | .obj members => members
  | _ => []

variable {v part : Json} {entry visit : String × Json} {key : String} {path base : List String}
  {skip : String → Bool}

theorem size_lt_of_mem_contents (h : entry ∈ v.contents) : entry.2.size < v.size := by
  cases v with
  | arr items =>
      obtain ⟨p, hp, rfl⟩ := List.mem_map.mp h
      have hle := size_le_of_mem (List.fst_mem_of_mem_zipIdx hp)
      rw [size]
      exact Nat.lt_of_le_of_lt hle (by omega)
  | obj members =>
      have hle : entry.2.size ≤ sizeMembers members := size_le_of_member h
      rw [size]
      omega
  | _ => cases h

/-- What holds of a value if it holds of what the value holds, holds of every value. -/
theorem contents_induction {motive : Json → Prop}
    (h : ∀ v, (∀ entry ∈ v.contents, motive entry.2) → motive v) (v : Json) : motive v := by
  induction hn : v.size using Nat.strongRecOn generalizing v with
  | ind n ih =>
      subst hn
      exact h v fun entry hm => ih _ (size_lt_of_mem_contents hm) entry.2 rfl

theorem nodup_contents_arr (items : List Json) : (Table.names (arr items).contents).Nodup := by
  have hnames : Table.names (arr items).contents = (List.range items.length).map Nat.repr := by
    rw [contents, Table.names, List.map_map, List.range_eq_range', ← List.zipIdx_map_snd 0 items,
      List.map_map]
    rfl
  rw [hnames]
  exact List.nodup_range.map Pointer.repr_injective

theorem nodup_contents (hv : v.Distinct) : (Table.names v.contents).Nodup := by
  cases v with
  | arr items => exact nodup_contents_arr items
  | obj members => exact hv.1
  | _ => exact List.nodup_nil

theorem distinct_of_mem_contents (hv : v.Distinct) (h : entry ∈ v.contents) : entry.2.Distinct := by
  cases v with
  | arr items =>
      obtain ⟨p, hp, rfl⟩ := List.mem_map.mp h
      exact distinctItems_iff.mp hv _ (List.fst_mem_of_mem_zipIdx hp)
  | obj members => exact distinctMembers_iff.mp hv.2 entry h
  | _ => cases h

/-- A step down is a lookup in what the value holds. -/
theorem step?_eq_get? (v : Json) (key : String) : v.step? key = Table.get? v.contents key := by
  cases v with
  | arr items =>
      rw [Option.ext_iff]
      intro x
      rw [step?, Option.bind_eq_some_iff]
      constructor
      · rintro ⟨i, hi, hx⟩
        refine Table.get?_of_mem (nodup_contents_arr items) (List.mem_map.mpr ⟨(x, i), ?_, ?_⟩)
        · exact List.mk_mem_zipIdx_iff_getElem?.mpr hx
        · rw [Pointer.eq_repr_of_position? hi]
      · intro hx
        obtain ⟨⟨y, i⟩, hy, he⟩ := List.mem_map.mp (Table.mem_of_get? hx)
        obtain ⟨rfl, rfl⟩ := Prod.mk.inj he
        exact ⟨i, Pointer.position?_repr i, List.mk_mem_zipIdx_iff_getElem?.mp hy⟩
  | obj members => rfl
  | _ => rfl

/-! ## Parts -/

/-- The value at the end of the way down along the segments. -/
inductive Part : Json → List String → Json → Prop
  | root (v : Json) : Part v [] v
  | within {v part : Json} {entry : String × Json} {path : List String} (hm : entry ∈ v.contents)
      (h : Part entry.2 path part) : Part v (entry.1 :: path) part

theorem part_of_follow? (h : v.follow? path = some part) : v.Part path part := by
  induction path generalizing v with
  | nil => exact Option.some.inj h ▸ .root v
  | cons key path ih =>
      obtain ⟨next, hstep, hnext⟩ := Option.bind_eq_some_iff.mp h
      have hm : (key, next) ∈ v.contents := by
        rw [step?_eq_get?] at hstep
        exact Table.mem_of_get? hstep
      exact .within hm (ih hnext)

/-- Reading along segments gives the part at the end of them. -/
theorem part_iff (hv : v.Distinct) : v.Part path part ↔ v.follow? path = some part := by
  refine ⟨fun h => ?_, part_of_follow?⟩
  induction h with
  | root v => rfl
  | @within v part entry path hm _ ih =>
      rw [follow?, step?_eq_get?, Table.get?_of_mem (nodup_contents hv) hm, Option.bind_some]
      exact ih (distinct_of_mem_contents hv hm)

/-! ## The walks, one value at a time -/

theorem preorderItems_eq (skip : String → Bool) (here : String) (index : Nat) (items : List Json) :
    preorderItems skip here index items =
      (items.zipIdx index).flatMap fun p => preorder skip (Pointer.item here p.2) p.1 := by
  induction items generalizing index with
  | nil => rfl
  | cons x xs ih => rw [preorderItems, ih, List.zipIdx_cons, List.flatMap_cons]

theorem preorderMembers_eq (skip : String → Bool) (here : String) (members : Members) :
    preorderMembers skip here members =
      members.flatMap fun entry => preorder skip (Pointer.child here entry.1) entry.2 := by
  induction members with
  | nil => rfl
  | cons entry rest ih =>
      obtain ⟨key, value⟩ := entry
      rw [preorderMembers, ih, List.flatMap_cons]

/-- A value is visited before what it holds, which is left out where it is skipped. -/
theorem preorder_eq (skip : String → Bool) (base : List String) (v : Json) :
    preorder skip (ofSegments base) v =
      (ofSegments base, v) :: if skip (ofSegments base) then [] else
        v.contents.flatMap fun entry => preorder skip (ofSegments (base ++ [entry.1])) entry.2 := by
  simp only [← Pointer.child_ofSegments]
  cases v with
  | arr items =>
      rw [preorder, preorderItems_eq, contents, List.flatMap_map]
      simp only [Pointer.item_eq_child]
  | obj members => rw [preorder, preorderMembers_eq, contents]
  | _ => simp [preorder, contents]

theorem postorderItems_eq (here : String) (index : Nat) (items : List Json) :
    postorderItems here index items =
      (items.zipIdx index).flatMap fun p => postorder (Pointer.item here p.2) p.1 := by
  induction items generalizing index with
  | nil => rfl
  | cons x xs ih => rw [postorderItems, ih, List.zipIdx_cons, List.flatMap_cons]

theorem postorderMembers_eq (here : String) (members : Members) :
    postorderMembers here members =
      members.flatMap fun entry => postorder (Pointer.child here entry.1) entry.2 := by
  induction members with
  | nil => rfl
  | cons entry rest ih =>
      obtain ⟨key, value⟩ := entry
      rw [postorderMembers, ih, List.flatMap_cons]

/-- A value is visited after what it holds. -/
theorem postorder_eq (base : List String) (v : Json) :
    postorder (ofSegments base) v =
      (v.contents.flatMap fun entry => postorder (ofSegments (base ++ [entry.1])) entry.2) ++
        [(ofSegments base, v)] := by
  simp only [← Pointer.child_ofSegments]
  cases v with
  | arr items =>
      rw [postorder, postorderItems_eq, contents, List.flatMap_map]
      simp only [Pointer.item_eq_child]
  | obj members => rw [postorder, postorderMembers_eq, contents]
  | _ => simp [postorder, contents]

/-! ## What is visited -/

/-- Nothing is skipped on the way from the base down to the end of the path. -/
def Unskipped (skip : String → Bool) (base path : List String) : Prop :=
  ∀ above below, path = above ++ below → below ≠ [] → skip (ofSegments (base ++ above)) = false

theorem unskipped_nil : Unskipped skip base [] := by
  intro above below he hne
  exact absurd (List.append_eq_nil_iff.mp he.symm).2 hne

theorem unskipped_cons : Unskipped skip base (key :: path) ↔
    skip (ofSegments base) = false ∧ Unskipped skip (base ++ [key]) path := by
  constructor
  · intro h
    refine ⟨?_, fun above below he hne => ?_⟩
    · have hroot := h [] (key :: path) rfl (List.cons_ne_nil _ _)
      rwa [List.append_nil] at hroot
    · have hbelow := h (key :: above) below (by rw [he, List.cons_append]) hne
      rwa [List.append_cons] at hbelow
  · rintro ⟨hroot, hrest⟩ above below he hne
    cases above with
    | nil => rwa [List.append_nil]
    | cons first above =>
        obtain ⟨rfl, rfl⟩ := List.cons.inj he
        rw [List.append_cons]
        exact hrest above below rfl hne

/-- From the root down: no pointer above the end of the path is skipped. -/
theorem unskipped_iff : Unskipped skip [] path ↔
    ∀ upper, skip upper = true → ¬Pointer.Above upper (ofSegments path) := by
  constructor
  · rintro h upper hskip ⟨above, below, rfl, hpath, hne⟩
    have hfalse := h above below (Pointer.ofSegments_injective hpath) hne
    rw [List.nil_append, hskip] at hfalse
    cases hfalse
  · rintro h above below rfl hne
    rw [List.nil_append, Bool.eq_false_iff]
    exact fun hskip => h _ hskip ⟨above, below, rfl, rfl, hne⟩

theorem mem_preorder : visit ∈ preorder skip (ofSegments base) v ↔
    ∃ path, visit.1 = ofSegments (base ++ path) ∧ v.Part path visit.2 ∧
      Unskipped skip base path := by
  induction v using contents_induction generalizing base with
  | h v ih =>
      rw [preorder_eq, List.mem_cons]
      constructor
      · rintro (rfl | hm)
        · exact ⟨[], by rw [List.append_nil], .root v, unskipped_nil⟩
        · split at hm
          · cases hm
          · next hskip =>
              obtain ⟨entry, hentry, hvisit⟩ := List.mem_flatMap.mp hm
              obtain ⟨path, hpath, hpart, hopen⟩ := (ih entry hentry).mp hvisit
              refine ⟨entry.1 :: path, ?_, .within hentry hpart, ?_⟩
              · rw [hpath, ← List.append_cons]
              · exact unskipped_cons.mpr ⟨Bool.eq_false_iff.mpr hskip, hopen⟩
      · rintro ⟨path, hpath, hpart, hopen⟩
        cases hpart with
        | root =>
            rw [List.append_nil] at hpath
            exact .inl (Prod.ext hpath rfl)
        | @within _ _ entry path hentry hpart =>
            obtain ⟨hskip, hopen⟩ := unskipped_cons.mp hopen
            rw [if_neg (Bool.eq_false_iff.mp hskip)]
            refine .inr (List.mem_flatMap.mpr ⟨entry, hentry, (ih entry hentry).mpr ?_⟩)
            exact ⟨path, by rw [hpath, ← List.append_cons], hpart, hopen⟩

theorem Stands.mem_places {pointer : String} (h : v.Stands pointer part) : pointer ∈ v.places := by
  obtain ⟨segments, rfl, h⟩ := h
  have hmem : (ofSegments segments, part) ∈ preorder (fun _ => false) (ofSegments []) v :=
    mem_preorder.mpr ⟨segments, rfl, part_of_follow? h, fun _ _ _ _ => rfl⟩
  exact List.mem_map.mpr ⟨_, hmem, rfl⟩

/-- The two walks visit the same. -/
theorem postorder_perm (base : List String) (v : Json) :
    (postorder (ofSegments base) v).Perm (preorder (fun _ => false) (ofSegments base) v) := by
  induction v using contents_induction generalizing base with
  | h v ih =>
      rw [postorder_eq, preorder_eq, if_neg Bool.false_ne_true]
      refine (List.perm_append_singleton _ _).trans (List.Perm.cons _ ?_)
      exact List.Perm.flatMap_left _ fun entry hm => ih entry hm _

/-! ## In which order -/

theorem covers_of_mem_preorder (h : visit ∈ preorder skip (ofSegments base) v) :
    Pointer.covers (ofSegments base) visit.1 = true := by
  obtain ⟨path, hpath, -, -⟩ := mem_preorder.mp h
  rw [hpath]
  exact Pointer.covers_ofSegments.mpr (List.prefix_append base path)

theorem covers_of_mem_postorder (h : visit ∈ postorder (ofSegments base) v) :
    Pointer.covers (ofSegments base) visit.1 = true :=
  covers_of_mem_preorder ((postorder_perm _ v).mem_iff.mp h)

/-- What is visited below a value lies below it. -/
theorem not_covers_above (h : Pointer.covers (ofSegments (base ++ [key])) visit.1 = true) :
    Pointer.covers visit.1 (ofSegments base) = false := by
  rw [Bool.eq_false_iff]
  intro hback
  have hprefix := Pointer.covers_ofSegments.mp (Pointer.covers_trans h hback)
  have hle := hprefix.length_le
  rw [List.length_append, List.length_singleton] at hle
  omega

/-- Walks through different contents stand apart, and a relation of all that stands apart is kept
where each of them keeps it. -/
theorem pairwise_contents {R : String × Json → String × Json → Prop}
    {walk : String × Json → List (String × Json)} (base : List String) (hv : v.Distinct)
    (hbelow : ∀ entry ∈ v.contents, ∀ visit ∈ walk entry,
      Pointer.covers (ofSegments (base ++ [entry.1])) visit.1 = true)
    (hapart : ∀ x y, Pointer.covers x.1 y.1 = false → Pointer.covers y.1 x.1 = false → R x y)
    (heach : ∀ entry ∈ v.contents, (walk entry).Pairwise R) :
    (v.contents.flatMap walk).Pairwise R := by
  have hnames : v.contents.Pairwise fun first second => first.1 ≠ second.1 :=
    List.pairwise_map.mp (nodup_contents hv)
  refine List.pairwise_flatMap.mpr ⟨heach, hnames.imp_of_mem ?_⟩
  intro first second hfirst hsecond hne x hx y hy
  have hxbelow := hbelow first hfirst x hx
  have hybelow := hbelow second hsecond y hy
  exact hapart x y (Pointer.covers_siblings hne hxbelow hybelow)
    (Pointer.covers_siblings (Ne.symm hne) hybelow hxbelow)

/-- No visit is to what contains an earlier one. -/
theorem pairwise_preorder (hv : v.Distinct) : (preorder skip (ofSegments base) v).Pairwise
    fun earlier later => Pointer.covers later.1 earlier.1 = false := by
  induction v using contents_induction generalizing base with
  | h v ih =>
      rw [preorder_eq, List.pairwise_cons]
      split
      · exact ⟨fun _ hm => absurd hm List.not_mem_nil, .nil⟩
      · refine ⟨fun visit hm => ?_, pairwise_contents base hv ?_ (fun _ _ _ h => h) ?_⟩
        · obtain ⟨entry, -, hm⟩ := List.mem_flatMap.mp hm
          exact not_covers_above (covers_of_mem_preorder hm)
        · exact fun entry _ visit hm => covers_of_mem_preorder hm
        · exact fun entry hm => ih entry hm (distinct_of_mem_contents hv hm)

/-- No visit is to what an earlier one contains. -/
theorem pairwise_postorder (hv : v.Distinct) : (postorder (ofSegments base) v).Pairwise
    fun earlier later => Pointer.covers earlier.1 later.1 = false := by
  induction v using contents_induction generalizing base with
  | h v ih =>
      rw [postorder_eq, List.pairwise_append]
      refine ⟨pairwise_contents base hv ?_ (fun _ _ h _ => h) ?_, List.pairwise_singleton _ _, ?_⟩
      · exact fun entry _ visit hm => covers_of_mem_postorder hm
      · exact fun entry hm => ih entry hm (distinct_of_mem_contents hv hm)
      · intro visit hm last hlast
        obtain ⟨entry, -, hm⟩ := List.mem_flatMap.mp hm
        rw [List.mem_singleton.mp hlast]
        exact not_covers_above (covers_of_mem_postorder hm)

/-- **Every part is visited once.**  The first walk visits the parts with nothing above them that is
skipped, each at a pointer of its own that leads to it, and what contains a part before the part.
The other one visits what the first one does when it skips nothing, and what contains a part after
it. -/
theorem walks_visit_parts (skip : String → Bool) (hv : v.Distinct) :
    (∀ pointer part, (pointer, part) ∈ preorder skip "" v ↔
      (∃ path, pointer = ofSegments path ∧ v.Part path part) ∧
        ∀ upper, skip upper = true → ¬Pointer.Above upper pointer) ∧
    ((preorder skip "" v).map Prod.fst).Nodup ∧
    (∀ visit ∈ preorder skip "" v, v.at? visit.1 = some visit.2) ∧
    ((preorder skip "" v).Pairwise fun earlier later => ¬Pointer.Above later.1 earlier.1) ∧
    (postorder "" v).Perm (preorder (fun _ => false) "" v) ∧
    (postorder "" v).Pairwise fun earlier later => ¬Pointer.Above earlier.1 later.1 := by
  have hmem : ∀ visit, visit ∈ preorder skip (ofSegments []) v ↔
      ∃ path, visit.1 = ofSegments path ∧ v.Part path visit.2 ∧ Unskipped skip [] path :=
    fun _ => mem_preorder
  have hpre : (preorder skip (ofSegments []) v).Pairwise _ := pairwise_preorder hv
  have hpost : (postorder (ofSegments []) v).Pairwise _ := pairwise_postorder hv
  refine ⟨?_, ?_, ?_, ?_, postorder_perm [] v, ?_⟩
  · intro pointer part
    rw [← Pointer.ofSegments_nil, hmem]
    constructor
    · rintro ⟨path, rfl, hpart, hopen⟩
      exact ⟨⟨path, rfl, hpart⟩, unskipped_iff.mp hopen⟩
    · rintro ⟨⟨path, rfl, hpart⟩, hopen⟩
      exact ⟨path, rfl, hpart, unskipped_iff.mpr hopen⟩
  · refine List.pairwise_map.mpr (hpre.imp ?_)
    intro earlier later hcovers hsame
    rw [hsame, Pointer.covers_refl] at hcovers
    cases hcovers
  · intro visit hvisit
    obtain ⟨path, hpath, hpart, -⟩ := (hmem visit).mp hvisit
    rw [hpath, at?_ofSegments]
    exact (part_iff hv).mp hpart
  · refine hpre.imp ?_
    intro earlier later hcovers habove
    rw [habove.covers] at hcovers
    cases hcovers
  · refine hpost.imp ?_
    intro earlier later hcovers habove
    rw [habove.covers] at hcovers
    cases hcovers

/-- An object with a name to escape, an empty name, and a name like the numeral of an item. -/
def spelledKeys : Json :=
  .obj [("a~/", .arr [.null, .obj [("", .bool true)]]), ("0", .arr [.obj [("1", .null)]])]

theorem walks_visit_parts_spelled :
    spelledKeys.Distinct ∧
    (preorder (· == "/0") "" spelledKeys).map Prod.fst =
      ["", "/a~0~1", "/a~0~1/0", "/a~0~1/1", "/a~0~1/1/", "/0"] ∧
    (∀ pointer part, (pointer, part) ∈ preorder (· == "/0") "" spelledKeys ↔
      (∃ path, pointer = ofSegments path ∧ spelledKeys.Part path part) ∧
        ∀ upper, (upper == "/0") = true → ¬Pointer.Above upper pointer) ∧
    (∀ visit ∈ preorder (· == "/0") "" spelledKeys, spelledKeys.at? visit.1 = some visit.2) ∧
    (postorder "" spelledKeys).Perm (preorder (fun _ => false) "" spelledKeys) := by
  have hdistinct : spelledKeys.Distinct := by
    simp [spelledKeys, Distinct, DistinctItems, DistinctMembers, Table.names]
  obtain ⟨hparts, -, hread, -, hperm, -⟩ := walks_visit_parts (· == "/0") hdistinct
  exact ⟨hdistinct, by decide, hparts, hread, hperm⟩

end Json

end SchemaForm
