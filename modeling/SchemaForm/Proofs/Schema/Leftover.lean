/-
Lists that merging leaves.

An `allOf` list that merging leaves has two schemas or more (`Dense`).  A list of such schemas
that merges to nothing but a list of as many and as heavy ones is a list of two, which stand
side by side (`pair_of_foldl`): a list that is merged once more grows shorter, or lighter.
-/
import SchemaForm.Proofs.Schema.Weight

namespace SchemaForm

namespace Schema

variable {a b p v : Json} {key : String} {xs ys parts others before after : List Json}

mutual

/-- An `allOf` list in the schema, or in a schema of the list, has two schemas or more, and none
that weighs nothing. -/
def Dense : Json → Prop
  | .arr items => DenseItems items
  | .obj members => ∀ parts, Table.get? members "allOf" = some (.arr parts) →
      2 ≤ parts.length ∧ ∀ part ∈ parts, 1 ≤ weight part
  | _ => True

def DenseItems : List Json → Prop
  | [] => True
  | x :: xs => Dense x ∧ DenseItems xs

end

theorem dense_arr : Dense (.arr xs) ↔ ∀ x ∈ xs, Dense x := by
  rw [Dense]
  induction xs with
  | nil => exact ⟨fun _ _ h => absurd h List.not_mem_nil, fun _ => trivial⟩
  | cons x xs ih => rw [DenseItems, ih, List.forall_mem_cons]

theorem Dense.list (h : Dense v) (hparts : v.get? "allOf" = some (.arr parts)) :
    2 ≤ parts.length ∧ ∀ part ∈ parts, 1 ≤ weight part := by
  cases v with
  | obj members => exact h parts hparts
  | _ => cases hparts

theorem dense_of_none {members : Members} (h : Table.get? members "allOf" = none) :
    Dense (.obj members) := by
  intro parts hparts
  rw [h] at hparts
  cases hparts

/-- A schema that says something weighs something. -/
theorem Dense.weight_pos (h : Dense v) (he : v.isEmpty = false) : 1 ≤ weight v := by
  cases v with
  | obj members =>
      cases members with
      | nil => cases he
      | cons entry rest =>
          obtain ⟨key, value⟩ := entry
          rw [weight, weightMembers_cons]
          refine Nat.le_trans ?_ (Nat.le_add_right _ _)
          by_cases hkey : key = "allOf"
          · subst hkey
            cases value with
            | arr parts =>
                obtain ⟨hlength, hparts⟩ := h parts rfl
                have := length_le_weightItems hparts
                exact Nat.le_trans (Nat.le_of_succ_le hlength) this
            | _ => exact Nat.le_add_right 1 _
          · rw [keyWeight_of_ne hkey]
  | arr items =>
      rw [Json.isEmpty] at he
      rw [weight, he]
      exact Nat.le_add_right 1 _
  | null => cases he
  | bool _ | num _ | str _ => exact Nat.le_refl 1

theorem Dense.combine (ha : Dense a) (hb : Dense b) (hdistinct : b.Distinct) :
    Dense (combine a b) := by
  have hjoined := combine_joined (a := a) hdistinct
  generalize Schema.combine a b = both at hjoined
  cases hjoined with
  | right => exact hb
  | left => exact ha
  | apart hae hbe =>
      intro parts hparts
      obtain rfl := Json.arr.inj (Option.some.inj hparts)
      refine ⟨Nat.le_refl 2, List.forall_mem_cons.mpr ⟨ha.weight_pos hae, ?_⟩⟩
      exact List.forall_mem_singleton.mpr (hb.weight_pos hbe)
  | @blended first second made hea heb _ _ hmade _ =>
      subst hea heb
      intro parts hparts
      rw [hmade] at hparts
      cases hf : Table.get? first "allOf" with
      | none =>
          rw [hf] at hparts
          exact hb parts hparts
      | some old =>
          rw [hf] at hparts
          cases hs : Table.get? second "allOf" with
          | none =>
              rw [hs] at hparts
              exact ha parts (hf.trans hparts)
          | some value =>
              rw [hs, blend, both?] at hparts
              split at hparts
              · exact ha parts (hf.trans hparts)
              · obtain ⟨xs, ys, rfl, rfl, he⟩ := (combineKeyword_demand (by decide)).mp hparts
                obtain rfl := Json.arr.inj he
                obtain ⟨hlength, hxs⟩ := ha xs hf
                obtain ⟨-, hys⟩ := hb ys hs
                refine ⟨?_, fun part hpart => ?_⟩
                · rw [union, List.length_append]
                  exact Nat.le_trans hlength (Nat.le_add_right _ _)
                · cases mem_union_iff.mp hpart with
                  | inl hpart => exact hxs part hpart
                  | inr hpart => exact hys part hpart.1

theorem Dense.merge (ha : Dense a) (hb : Dense b) (hda : a.Distinct) (hdb : b.Distinct) :
    Dense (merge a b) := by
  rcases merge_cases a b with ⟨-, hmerge⟩ | ⟨first, second, rfl, rfl, hmerge⟩
  · rw [hmerge]
    exact Dense.combine ha hb hdb
  · obtain ⟨-, hright⟩ := sides_distinct hda hdb
    rw [hmerge]
    refine Dense.combine (fun parts hparts => ha parts ?_) (fun parts hparts => hb parts ?_) hright
    · rwa [get?_sides_left, joint?_allOf, Option.none_or] at hparts
    · rw [get?_sides_right hdb.1, joint?_allOf] at hparts
      exact hparts

theorem Dense.foldl (ha : Dense a) (hda : a.Distinct) (h : ∀ x ∈ xs, Dense x)
    (hdistinct : ∀ x ∈ xs, x.Distinct) : Dense (xs.foldl Schema.merge a) := by
  induction xs generalizing a with
  | nil => exact ha
  | cons x xs ih =>
      rw [List.forall_mem_cons] at h hdistinct
      exact ih (ha.merge h.1 hda hdistinct.1) (merge_distinct hda hdistinct.1) h.2 hdistinct.2

theorem Dense.mergeAll (h : ∀ x ∈ xs, Dense x) (hdistinct : ∀ x ∈ xs, x.Distinct) :
    Dense (mergeAll xs) :=
  Dense.foldl (dense_of_none rfl) ⟨List.nodup_nil, trivial⟩ h hdistinct

/-- What is merged into its schema leaves such a list, when its members do. -/
theorem Dense.collapseAllOf {members : Members} (hdistinct : (Json.obj members).Distinct)
    (h : ∀ parts, Table.get? members "allOf" = some (.arr parts) → ∀ part ∈ parts, Dense part) :
    Dense (collapseAllOf (.obj members)) := by
  have hcollapsed := collapsed (.obj members)
  generalize Schema.collapseAllOf (.obj members) = w at hcollapsed
  cases hcollapsed with
  | kept hnot => exact fun parts hparts => absurd hparts (hnot parts)
  | alone he hparts =>
      obtain rfl := Json.obj.inj he
      exact Dense.mergeAll (h _ hparts) (Json.distinctItems_iff.mp (hdistinct.member hparts))
  | beside he hparts =>
      obtain rfl := Json.obj.inj he
      have hparts' := Json.distinctItems_iff.mp (hdistinct.member hparts)
      refine (Dense.mergeAll (h _ hparts) hparts').merge (dense_of_none ?_)
        (mergeAll_distinct hparts') (swapErase_distinct hdistinct "allOf")
      rw [Table.get?_swapErase hdistinct.1, if_pos rfl]

theorem Dense.moveRequired (h : Dense v) (hdistinct : v.Distinct) : Dense (moveRequired v) := by
  rcases moveRequired_cases v with he | ⟨members, names, key, items, rfl, hmoves⟩
  · rwa [he]
  · have hkey : key ≠ "allOf" := by
      rcases hmoves.keyword with rfl | rfl <;> decide
    rw [moveRequired_moves hmoves]
    intro parts hparts
    rw [Table.get?_insert, if_neg hkey, Table.get?_swapErase hdistinct.1,
      if_neg (by decide)] at hparts
    exact h parts hparts

/-! ## Schemas that are nothing but a list -/

/-- The schema holds nothing but the list. -/
def Listing (v : Json) (parts : List Json) : Prop :=
  ∃ members, v = .obj members ∧
    ∀ key, Table.get? members key = if "allOf" = key then some (.arr parts) else none

theorem Listing.get? (h : Listing v parts) : v.get? "allOf" = some (.arr parts) := by
  obtain ⟨members, rfl, h⟩ := h
  exact (h "allOf").trans (if_pos rfl)

theorem Listing.unique (h : Listing v parts) (h' : Listing v others) : parts = others :=
  Json.arr.inj (Option.some.inj (h.get?.symm.trans h'.get?))

theorem listing_sideBySide (a b : Json) : Listing (sideBySide a b) [a, b] :=
  ⟨_, rfl, fun _ => rfl⟩

/-- A schema that weighs something, as do those of its list. -/
structure Solid (v : Json) : Prop where
  distinct : v.Distinct
  dense : Dense v
  pos : 1 ≤ weight v

theorem isEmpty_of_weight (h : 1 ≤ weight v) : v.isEmpty = false := by
  cases v with
  | obj members =>
      cases members with
      | nil => cases h
      | cons => rfl
  | arr items =>
      cases items with
      | nil => cases h
      | cons => rfl
  | null => cases h
  | bool _ | num _ | str _ => rfl

theorem filter_eq_of_weight {q : Json → Bool} (h : ∀ y ∈ ys, 1 ≤ weight y)
    (hweight : weightItems (ys.filter q) = weightItems ys) : ys.filter q = ys := by
  induction ys with
  | nil => rfl
  | cons y ys ih =>
      rw [List.forall_mem_cons] at h
      have hle := weightItems_filter_le q ys
      rw [List.filter_cons] at hweight ⊢
      split at hweight
      · next hq =>
          simp only [weightItems, Nat.add_left_cancel_iff] at hweight
          rw [if_pos hq, ih h.2 hweight]
      · rw [weightItems] at hweight
        omega

/-- Only under the name of the list has either schema something. -/
theorem Solid.listing (h : Solid v) {members : Members} (he : v = .obj members)
    (hother : ∀ key, "allOf" ≠ key → Table.get? members key = none) :
    ∃ value, Table.get? members "allOf" = some value ∧ 1 ≤ keyWeight "allOf" (some value) := by
  subst he
  have hsum := weight_obj h.distinct.1 (S := (Table.names members).toFinset)
    fun key hkey => List.mem_toFinset.mpr hkey
  have hone : weight (.obj members) ≤ keyWeight "allOf" (Table.get? members "allOf") := by
    have hterm : ∀ key, keyWeight key (Table.get? members key) =
        if "allOf" = key then keyWeight "allOf" (Table.get? members "allOf") else 0 := by
      intro key
      split
      · next he => rw [he]
      · next hne => rw [hother key hne, keyWeight]
    rw [hsum, Finset.sum_congr rfl fun key _ => hterm key, Finset.sum_ite_eq]
    split
    · exact Nat.le_refl _
    · exact Nat.zero_le _
  have hpos := Nat.le_trans h.pos hone
  cases hget : Table.get? members "allOf" with
  | none =>
      rw [hget] at hpos
      cases hpos
  | some value =>
      rw [hget] at hpos
      exact ⟨value, rfl, hpos⟩

/-- Schemas that merge to nothing but a list, as heavy as both, stand side by side in it or
are nothing but lists. -/
theorem listing_merge (ha : Solid a) (hb : Solid b)
    (hweight : weight (merge a b) = weight a + weight b) (hlist : Listing (merge a b) parts) :
    merge a b = sideBySide a b ∧ parts = [a, b] ∨
      ∃ xs ys, Listing a xs ∧ Listing b ys ∧ parts = xs ++ ys := by
  rcases merge_tight ha.distinct hb.distinct (isEmpty_of_weight ha.pos) (isEmpty_of_weight hb.pos)
    hweight with he | ⟨first, second, made, rfl, rfl, hmade, hkeys⟩
  · rw [he] at hlist
    exact .inl ⟨he, hlist.unique (listing_sideBySide a b)⟩
  · right
    obtain ⟨_, he, hmembers⟩ := hmade ▸ hlist
    obtain rfl := Json.obj.inj he
    have hother : ∀ key, "allOf" ≠ key →
        Table.get? first key = none ∧ Table.get? second key = none := by
      intro key hkey
      have hsum := (hkeys key).2
      rw [hmembers key, if_neg hkey, keyWeight] at hsum
      exact ⟨eq_none_of_keyWeight hkey (by omega), eq_none_of_keyWeight hkey (by omega)⟩
    obtain ⟨old, hold, -⟩ := ha.listing rfl fun key hkey => (hother key hkey).1
    obtain ⟨value, hvalue, hpos⟩ := hb.listing rfl fun key hkey => (hother key hkey).2
    obtain ⟨hblend, hsum⟩ := hkeys "allOf"
    rw [hmembers, if_pos rfl, hold, hvalue] at hblend hsum
    rw [blend, both?] at hblend
    split at hblend
    · -- the second list would weigh nothing
      rw [Option.some.inj hblend] at hsum
      omega
    · obtain ⟨xs, ys, rfl, rfl, he⟩ := (combineKeyword_demand (by decide)).mp hblend.symm
      obtain rfl := Json.arr.inj he
      simp only [keyWeight, if_true, union, weightItems_append, Nat.add_left_cancel_iff] at hsum
      have hkept := filter_eq_of_weight (hb.dense ys hvalue).2 hsum
      refine ⟨xs, ys, ⟨first, rfl, fun key => ?_⟩, ⟨second, rfl, fun key => ?_⟩, ?_⟩
      · split
        · next he => rw [← he, hold]
        · next hne => exact (hother key hne).1
      · split
        · next he => rw [← he, hvalue]
        · next hne => exact (hother key hne).2
      · rw [union, hkept]

/-- Where a list of schemas merges to one as heavy, so does what comes before its last one. -/
theorem tight_of_append (hp : p.Distinct) (hxs : ∀ x ∈ xs, x.Distinct) (hb : b.Distinct)
    (h : weight ((xs ++ [b]).foldl merge p) = weight p + weightItems (xs ++ [b])) :
    weight (xs.foldl merge p) = weight p + weightItems xs ∧
      weight (merge (xs.foldl merge p) b) = weight (xs.foldl merge p) + weight b := by
  have hdistinct := foldl_merge_distinct hp hxs
  have hbefore := weight_foldl_le hp hxs
  have hlast := weight_merge_le hdistinct hb
  rw [List.foldl_append, weightItems_append] at h
  simp only [List.foldl_cons, List.foldl_nil, weightItems] at h
  omega

theorem Solid.foldl (hp : Solid p) (hxs : ∀ x ∈ xs, Solid x)
    (h : weight (xs.foldl merge p) = weight p + weightItems xs) : Solid (xs.foldl merge p) where
  distinct := foldl_merge_distinct hp.distinct fun x hx => (hxs x hx).distinct
  dense := Dense.foldl hp.dense hp.distinct (fun x hx => (hxs x hx).dense)
    fun x hx => (hxs x hx).distinct
  pos := h ▸ Nat.le_trans hp.pos (Nat.le_add_right _ _)

/-- Schemas that merge to nothing but a list, and one as heavy: each of them brings two of its
schemas, or from some place on each of them does, and what was merged before is the first one. -/
theorem listing_foldl (hp : Solid p) (hxs : ∀ x ∈ xs, Solid x)
    (hweight : weight (xs.foldl merge p) = weight p + weightItems xs)
    (hlist : Listing (xs.foldl merge p) parts) :
    2 * (xs.length + 1) ≤ parts.length ∨ ∃ before b after, xs = before ++ b :: after ∧
      parts.head? = some (before.foldl merge p) ∧
      weight (before.foldl merge p) = weight p + weightItems before ∧
      2 + 2 * after.length ≤ parts.length := by
  induction xs using List.reverseRecOn generalizing parts with
  | nil => exact .inl (hp.dense.list hlist.get?).1
  | append_singleton xs b ih =>
      rw [List.forall_mem_append, List.forall_mem_singleton] at hxs
      obtain ⟨hbefore, hlast⟩ := tight_of_append hp.distinct (fun x hx => (hxs.1 x hx).distinct)
        hxs.2.distinct hweight
      rw [List.foldl_append] at hlist
      rcases listing_merge (hp.foldl hxs.1 hbefore) hxs.2 hlast hlist with
        ⟨-, rfl⟩ | ⟨us, ws, hus, hws, rfl⟩
      · exact .inr ⟨xs, b, [], rfl, rfl, hbefore, Nat.le_refl 2⟩
      · have hlength := (hxs.2.dense.list hws.get?).1
        rcases ih hxs.1 hbefore hus with hle | ⟨before, c, after, rfl, hhead, hprefix, hle⟩
        · left
          rw [List.length_append, List.length_append, List.length_singleton]
          omega
        · refine .inr ⟨before, c, after ++ [b], ?_, ?_, hprefix, ?_⟩
          · rw [List.append_assoc, List.cons_append]
          · rw [List.head?_append, hhead, Option.some_or]
          · rw [List.length_append, List.length_append, List.length_singleton]
            omega

/-- A list that merges to nothing but a list of as many schemas and as heavy ones is a pair,
which stands side by side. -/
theorem pair_of_foldl (hp : Solid p) (hxs : ∀ x ∈ xs, Solid x)
    (hweight : weight (xs.foldl merge p) = weight p + weightItems xs)
    (hlist : Listing (xs.foldl merge p) parts) (hlength : parts.length = xs.length + 1)
    (hhead : ∀ part, parts.head? = some part → weight part = weight p) :
    ∃ b, xs = [b] ∧ merge p b = sideBySide p b ∧ parts = [p, b] := by
  rcases listing_foldl hp hxs hweight hlist with hle | ⟨before, b, after, rfl, hfirst, hprefix, hle⟩
  · omega
  · have hbefore : weightItems before = 0 := by
      have := hhead _ hfirst
      omega
    have hnil : before = [] := by
      have hpos := length_le_weightItems fun x hx => (hxs x (List.mem_append_left _ hx)).pos
      exact List.length_eq_zero_iff.mp (by omega)
    subst hnil
    have hafter : after = [] := by
      rw [List.nil_append, List.length_cons] at hlength
      exact List.length_eq_zero_iff.mp (by omega)
    subst hafter
    have hb : Solid b := hxs b List.mem_cons_self
    rcases listing_merge hp hb hweight hlist with hpair | ⟨us, ws, hus, hws, rfl⟩
    · exact ⟨b, rfl, hpair⟩
    · have := (hp.dense.list hus.get?).1
      have := (hb.dense.list hws.get?).1
      rw [List.length_append] at hlength
      simp only [List.nil_append, List.length_singleton] at hlength
      omega

theorem pair_of_mergeAll (hdense : ∀ x ∈ xs, Dense x) (hdistinct : ∀ x ∈ xs, x.Distinct)
    (hweight : weight (mergeAll xs) = weightItems xs) (hlist : Listing (mergeAll xs) parts)
    (hparts : List.Forall₂ (fun part x => weight part = weight x) parts xs) :
    ∃ a b, xs = [a, b] ∧ merge a b = sideBySide a b ∧ parts = [a, b] := by
  obtain ⟨hlength, hpos⟩ := (Dense.mergeAll hdense hdistinct).list hlist.get?
  have hsolid : ∀ x ∈ xs, Solid x := by
    intro x hx
    obtain ⟨part, hpart, he⟩ := Json.forall₂_mem_right hparts hx
    exact ⟨hdistinct x hx, hdense x hx, he ▸ hpos part hpart⟩
  cases hparts with
  | nil => cases hlength
  | @cons part p others rest hfirst hrest =>
      rw [mergeAll_cons] at hweight hlist
      rw [List.forall_mem_cons] at hsolid
      obtain ⟨b, rfl, hpair⟩ := pair_of_foldl hsolid.1 hsolid.2 hweight hlist
        (congrArg (· + 1) hrest.length_eq) fun q hq => Option.some.inj hq ▸ hfirst
      exact ⟨p, b, rfl, hpair⟩

end Schema

end SchemaForm
