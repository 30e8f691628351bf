/-
Finished schemas.

A schema is finished when merging its `allOf` list into it and moving its requirements leave
it as it is: the list is a pair that stays side by side, and nothing is to be moved.  Whether
it is does not depend on the order of members (`Finished.same`).  Merging and moving give an
equal schema exactly for a finished one, as far as the lists that were merged before are
concerned (`Finished.collapse`, `finished_of_same`).
-/
import SchemaForm.Proofs.Schema.Leftover

namespace SchemaForm

namespace Schema

variable {a b a' b' v : Json} {key : String} {first second members others : Members}
  {xs ys parts : List Json}

/-- Neither is an `allOf` list to be merged into the schema nor are requirements to be moved. -/
structure Finished (members : Members) : Prop where
  pair : ∀ parts, Table.get? members "allOf" = some (.arr parts) →
    ∃ a b, parts = [a, b] ∧ merge a b = sideBySide a b
  unmoved : moveRequired (.obj members) = .obj members

/-! ## Keywords that cannot be combined -/

theorem typeList?_isSome_same (h : a.same a') : (typeList? a).isSome = (typeList? a').isSome := by
  cases a <;> cases a' <;> first | rfl | cases h

theorem intersectTypes?_isSome (a b : Json) :
    (intersectTypes? a b).isSome = ((typeList? a).isSome && (typeList? b).isSome) := by
  unfold intersectTypes?
  cases typeList? a with
  | none => rfl
  | some names =>
      cases typeList? b with
      | none => rfl
      | some others =>
          simp only [Option.bind_eq_bind, Option.bind_some]
          split <;> rfl

theorem tighter?_isSome (replaces : Binary64 → Binary64 → Bool) (a b : Json) :
    (tighter? replaces a b).isSome = (a.real?.isSome && b.real?.isSome) := by
  unfold tighter?
  cases a.real? <;> cases b.real? <;> rfl

theorem combineLimit?_isSome_same (ha : a.same a') (hb : b.same b') :
    (combineLimit? key a b).isSome = (combineLimit? key a' b').isSome := by
  have hra := Json.same_real?_isSome ha
  have hrb := Json.same_real?_isSome hb
  unfold combineLimit?
  split
  · rw [intersectTypes?_isSome, intersectTypes?_isSome, typeList?_isSome_same ha,
      typeList?_isSome_same hb]
  split
  · cases a <;> cases a' <;> first
      | cases ha; done
      | cases b <;> cases b' <;> first | rfl | cases hb
  split
  · cases ha : a.real? <;> cases hb : b.real? <;> cases ha' : a'.real? <;> cases hb' : b'.real? <;>
      simp_all
  split
  · rfl
  split
  · rw [tighter?_isSome, tighter?_isSome, hra, hrb]
  split
  · rw [tighter?_isSome, tighter?_isSome, hra, hrb]
  · rfl

/-- Whether two values can be made one does not depend on the order of members. -/
theorem combineKeyword_isSome_same (ha : a.same a') (hb : b.same b') :
    (combineKeyword key a b).isSome = (combineKeyword key a' b').isSome := by
  by_cases hkey : key ∈ alternativeKeywords
  · have hkey' : alternativeKeywords.contains key = true := by simpa using hkey
    unfold combineKeyword
    rw [if_pos hkey', if_pos hkey']
    cases a <;> cases a' <;> first
      | cases ha; done
      | cases b <;> cases b' <;> first | rfl | cases hb
  · rw [combineKeyword_of_not_alternative hkey, combineKeyword_of_not_alternative hkey,
      combineLimit?_isSome_same ha hb]

theorem both?_none_same (hd : b.Distinct) (hd' : b'.Distinct) (ha : a.same a') (hb : b.same b')
    (h : both? key a b = none) : both? key a' b' = none := by
  have hsome : (combineKeyword key a b).isSome = (combineKeyword key a' b').isSome :=
    combineKeyword_isSome_same ha hb
  unfold both? at h ⊢
  split at h
  · cases h
  · next hdiffer =>
      rw [h, Option.isSome_none] at hsome
      rw [if_neg, ← Option.not_isSome_iff_eq_none, ← hsome]
      · exact Bool.false_ne_true
      · intro hsame
        exact hdiffer (Json.same_trans ha (Json.same_trans hsame (Json.same_symm hd hd' hb)))

/-! ## Pairs that stay side by side -/

theorem size_lt_of_listed (h : v.get? "allOf" = some (.arr parts)) (ha : a ∈ parts) :
    a.size < v.size := by
  cases v with
  | obj members =>
      have hlist := Json.size_le_of_get? h
      have hmem := Json.size_le_of_mem ha
      simp only [Json.size] at hlist ⊢
      omega
  | _ => cases h

/-- What is combined into a list of both was not made one. -/
theorem apart_of_joined
    (hlist : ∀ xs, a'.get? "allOf" = some (.arr xs) → a.get? "allOf" = some (.arr xs))
    (hlist' : ∀ xs, b'.get? "allOf" = some (.arr xs) → b.get? "allOf" = some (.arr xs))
    (h : Joined a' b' (sideBySide a b)) :
    a'.isEmpty = false ∧ b'.isEmpty = false ∧ Apart a' b' ∧ a' = a ∧ b' = b := by
  -- neither has the list of both
  have hleft : a.get? "allOf" ≠ some (.arr [a, b]) := fun h =>
    Nat.lt_irrefl _ (size_lt_of_listed h List.mem_cons_self)
  have hright : b.get? "allOf" ≠ some (.arr [a, b]) := fun h =>
    Nat.lt_irrefl _ (size_lt_of_listed h (List.mem_cons_of_mem _ List.mem_cons_self))
  generalize hboth : sideBySide a b = both at h
  have hget : both.get? "allOf" = some (.arr [a, b]) := hboth ▸ rfl
  cases h with
  | right => exact absurd (hlist' _ hget) hright
  | left => exact absurd (hlist _ hget) hleft
  | apart he he' hapart =>
      have hparts := (Json.obj.inj hboth)
      simp only [List.cons.injEq, Prod.mk.injEq, Json.arr.injEq, true_and, and_true] at hparts
      exact ⟨he, he', hapart, hparts.1.symm, hparts.2.symm⟩
  | @blended first second made hea heb _ _ hmade _ =>
      subst hea heb
      rw [Json.get?, hmade] at hget
      cases hf : Table.get? first "allOf" with
      | none =>
          rw [hf] at hget
          exact absurd (hlist' _ hget) hright
      | some old =>
          cases hs : Table.get? second "allOf" with
          | none =>
              rw [hf, hs] at hget
              exact absurd (hlist _ (hf.trans hget)) hleft
          | some value =>
              rw [hf, hs, blend, both?] at hget
              split at hget
              · exact absurd (hlist _ (hf.trans hget)) hleft
              · obtain ⟨xs, ys, rfl, rfl, he⟩ := (combineKeyword_demand (by decide)).mp hget
                have hunion : union xs ys = [a, b] := (Json.arr.inj he).symm
                have hina : ∀ {x}, x ∈ xs → x.size < a.size := size_lt_of_listed (hlist _ hf)
                have hinb : ∀ {x}, x ∈ ys → x.size < b.size := size_lt_of_listed (hlist' _ hs)
                -- each of them would be in the other one's list
                have hma : a ∈ union xs ys := hunion ▸ List.mem_cons_self
                have hmb : b ∈ union xs ys := hunion ▸ List.mem_cons_of_mem _ List.mem_cons_self
                have hlt : a.size < b.size := by
                  cases mem_union_iff.mp hma with
                  | inl hm => exact absurd (hina hm) (Nat.lt_irrefl _)
                  | inr hm => exact hinb hm.1
                have hgt : b.size < a.size := by
                  cases mem_union_iff.mp hmb with
                  | inl hm => exact hina hm
                  | inr hm => exact absurd (hinb hm.1) (Nat.lt_irrefl _)
                omega

theorem unmergeable_of_merge (ha : a.Distinct) (hb : b.Distinct) (h : merge a b = sideBySide a b) :
    Unmergeable a b := by
  rcases merge_cases a b with ⟨hunjoined, hmerge⟩ | ⟨first, second, rfl, rfl, hmerge⟩
  · have hjoined := combine_joined (a := a) hb
    rw [← hmerge, h] at hjoined
    obtain ⟨he, he', hapart, -⟩ := apart_of_joined (fun _ h => h) (fun _ h => h) hjoined
    exact ⟨he, he', hapart, hunjoined⟩
  · have hjoined := combine_joined (a := .obj (sides first second).1) (sides_distinct ha hb).2
    rw [← hmerge, h] at hjoined
    obtain ⟨he, he', hapart, hleft, hright⟩ := apart_of_joined
      (fun xs hxs => by rwa [Json.get?, get?_sides_left, joint?_allOf, Option.none_or] at hxs)
      (fun xs hxs => by rwa [Json.get?, get?_sides_right hb.1, joint?_allOf] at hxs) hjoined
    rw [hleft] at he hapart
    rw [hright] at he' hapart
    refine ⟨he, he', hapart, ?_⟩
    rintro _ _ ⟨⟩ ⟨⟩ key
    cases hjoint : joint? first second key with
    | none => rfl
    | some v =>
        -- what is merged under a name is taken out of the second schema
        obtain ⟨left, right, -, hr, -⟩ := joint?_eq_some.mp hjoint
        have hgone : Table.get? (sides first second).2 key = _ := get?_sides_right hb.1 key
        rw [Json.obj.inj hright, hjoint, hr] at hgone
        cases hgone

theorem Apart.same (hda : a.Distinct) (hdb : b.Distinct) (hda' : a'.Distinct) (hdb' : b'.Distinct)
    (ha : a.same a') (hb : b.same b') (h : Apart a b) : Apart a' b' := by
  rintro first' second' rfl rfl
  obtain ⟨first, rfl⟩ := Json.same_obj (Json.same_symm hda hda' ha)
  obtain ⟨second, rfl⟩ := Json.same_obj (Json.same_symm hdb hdb' hb)
  obtain ⟨key, old, value, hold, hvalue, hnone⟩ := h first second rfl rfl
  obtain ⟨old', hold', hsame⟩ := Json.same_member ha hold
  obtain ⟨value', hvalue', hsame'⟩ := Json.same_member hb hvalue
  exact ⟨key, old', value', hold', hvalue',
    both?_none_same (hdb.member hvalue) (hdb'.member hvalue') hsame hsame' hnone⟩

/-- That two schemas stay side by side does not depend on the order of members. -/
theorem Unmergeable.same (hda : a.Distinct) (hdb : b.Distinct) (hda' : a'.Distinct)
    (hdb' : b'.Distinct) (ha : a.same a') (hb : b.same b') (h : Unmergeable a b) :
    Unmergeable a' b' where
  left := Json.same_isEmpty ha ▸ h.left
  right := Json.same_isEmpty hb ▸ h.right
  apart := h.apart.same hda hdb hda' hdb' ha hb
  unjoined := by
    rintro first' second' rfl rfl key
    have ha' := Json.same_symm hda hda' ha
    have hb' := Json.same_symm hdb hdb' hb
    obtain ⟨first, rfl⟩ := Json.same_obj ha'
    obtain ⟨second, rfl⟩ := Json.same_obj hb'
    cases hjoint : joint? first' second' key with
    | none => rfl
    | some v =>
        obtain ⟨left', right', hl', hr', hkey⟩ := joint?_eq_some.mp hjoint
        obtain ⟨left, hl, hleft⟩ := Json.same_member ha' hl'
        obtain ⟨right, hr, hright⟩ := Json.same_member hb' hr'
        obtain ⟨left, rfl⟩ := Json.same_obj hleft
        obtain ⟨right, rfl⟩ := Json.same_obj hright
        have hnone := h.unjoined first second rfl rfl key
        have hsome : ∃ v, joint? first second key = some v := by
          rcases hkey with ⟨rfl, -⟩ | ⟨hmaps, -⟩
          · exact ⟨_, joint?_eq_some.mpr ⟨left, right, hl, hr, .inl ⟨rfl, rfl⟩⟩⟩
          · exact ⟨_, joint?_eq_some.mpr ⟨left, right, hl, hr, .inr ⟨hmaps, rfl⟩⟩⟩
        obtain ⟨v, hv⟩ := hsome
        rw [hnone] at hv
        cases hv

/-! ## Requirements that stay -/

/-- Whether requirements are moved does not depend on the order of members. -/
theorem Moves.same {names : List Json} {items : Members} (hms : (Json.obj members).Distinct)
    (hns : (Json.obj others).Distinct) (h : (Json.obj members).same (.obj others))
    (hmoves : Moves members names key items) : ∃ names' items', Moves others names' key items' := by
  obtain ⟨list, hrequired, hlist⟩ := Json.same_member h hmoves.required
  obtain ⟨names', rfl, hnames⟩ := Json.same_arr hlist
  obtain ⟨target, htarget, hitems⟩ := Json.same_member h hmoves.target
  obtain ⟨items', rfl⟩ := Json.same_obj hitems
  have hditems := hms.member hmoves.target
  have hditems' := hns.member htarget
  have hhas : ∀ name, Table.has items name = Table.has items' name :=
    Json.same_get?_isSome hditems hditems' hitems
  refine ⟨names', items', hrequired, ?_, ?_, htarget, hhas "required" ▸ hmoves.free, ?_⟩
  · have htyped := hmoves.typed
    rw [isTyped, beq_iff_eq] at htyped ⊢
    obtain ⟨value, hvalue, htext⟩ := Option.bind_eq_some_iff.mp htyped
    obtain rfl : value = .str "array" := by
      cases value with
      | str text => exact congrArg Json.str (Option.some.inj htext)
      | _ => cases htext
    obtain ⟨value', hvalue', hsame⟩ := Json.same_member h hvalue
    rw [Json.get?, hvalue', Json.same_str hsame]
    rfl
  · have hholds : (fun key => (((Json.obj members).get? key).bind (·.get? "properties")).isSome) =
        fun key => (((Json.obj others).get? key).bind (·.get? "properties")).isSome :=
      funext fun key => Json.same_bind_isSome hms hns h key "properties"
    rw [← hholds]
    exact hmoves.holder
  · rw [← hhas]
    refine hmoves.fits.imp_right fun hall name' hname' => ?_
    obtain ⟨name, hname, hsame⟩ := Json.forall₂_mem_right hnames hname'
    have hdeclares := hall name hname
    cases name with
    | str text =>
        obtain rfl := Json.same_str hsame
        exact (Json.same_bind_isSome hditems hditems' hitems "properties" text).symm.trans hdeclares
    | _ => cases hdeclares

theorem unmoved_same (hms : (Json.obj members).Distinct) (hns : (Json.obj others).Distinct)
    (h : (Json.obj members).same (.obj others))
    (hunmoved : moveRequired (.obj members) = .obj members) :
    moveRequired (.obj others) = .obj others := by
  rw [moveRequired_eq_self_iff hns.1]
  intro names key items hmoves
  obtain ⟨names', items', hmoves'⟩ := hmoves.same hns hms (Json.same_symm hms hns h)
  exact (moveRequired_eq_self_iff hms.1).mp hunmoved names' key items' hmoves'

/-- Whether a schema is finished does not depend on the order of members. -/
theorem Finished.same (hms : (Json.obj members).Distinct) (hns : (Json.obj others).Distinct)
    (h : (Json.obj members).same (.obj others)) (hfinished : Finished members) :
    Finished others where
  pair parts' hparts' := by
    obtain ⟨list, hlist, hsame⟩ := Json.same_member (Json.same_symm hms hns h) hparts'
    obtain ⟨parts, rfl, hparts⟩ := Json.same_arr hsame
    obtain ⟨a, b, rfl, hmerge⟩ := hfinished.pair parts hlist
    obtain ⟨a', rest, ha, hrest, rfl⟩ := List.forall₂_cons_right_iff.mp hparts
    obtain ⟨b', none, hb, hnone, rfl⟩ := List.forall₂_cons_right_iff.mp hrest
    obtain rfl := List.forall₂_nil_right_iff.mp hnone
    obtain ⟨hda, hdb, -⟩ := hms.member hlist
    obtain ⟨hda', hdb', -⟩ := hns.member hparts'
    have hunmergeable := (unmergeable_of_merge hda hdb hmerge).same hda hdb hda' hdb'
      (Json.same_symm hda' hda ha) (Json.same_symm hdb' hdb hb)
    exact ⟨a', b', rfl, merge_of_unmergeable hunmergeable hdb'⟩
  unmoved := unmoved_same hms hns h hfinished.unmoved

/-! ## Finishing a finished schema -/

/-- A finished schema collapses to one with the same members. -/
theorem Finished.collapsed (hms : (Json.obj members).Distinct) (h : Finished members) :
    ∃ made, collapseAllOf (.obj members) = .obj made ∧
      ∀ key, Table.get? made key = Table.get? members key := by
  have hcollapsed := Schema.collapsed (.obj members)
  generalize collapseAllOf (.obj members) = w at hcollapsed
  cases hcollapsed with
  | kept => exact ⟨members, rfl, fun _ => rfl⟩
  | @alone _ parts he hparts hrest =>
      obtain rfl := Json.obj.inj he
      obtain ⟨a, b, rfl, hmerge⟩ := h.pair parts hparts
      refine ⟨_, (mergeAll_pair a b).trans hmerge, fun key => ?_⟩
      rw [Table.get?_cons]
      split
      · next hkey => rw [← hkey, hparts]
      · next hkey =>
          have hnone := Table.get?_swapErase hms.1 "allOf" key
          rw [hrest, if_neg hkey] at hnone
          exact hnone
  | @beside _ parts he hparts hrest =>
      obtain rfl := Json.obj.inj he
      obtain ⟨a, b, rfl, hmerge⟩ := h.pair parts hparts
      rw [mergeAll_pair, hmerge]
      -- the pair and what is beside it have no name in common
      have hlookup := Table.get?_swapErase hms.1 "allOf"
      have hdistinct := swapErase_distinct hms "allOf"
      generalize Table.swapErase members "allOf" = rest at hrest hlookup hdistinct
      have hnone : ∀ key, Table.get? rest key ≠ none →
          Table.get? [("allOf", Json.arr [a, b])] key = none := by
        intro key hkey
        rw [hlookup] at hkey
        rw [Table.get?_cons]
        split at hkey
        · exact absurd rfl hkey
        · next hne => rw [if_neg hne, Table.get?_nil]
      have hunjoined : Unjoined (sideBySide a b) (.obj rest) := by
        rintro _ _ ⟨⟩ ⟨⟩ key
        cases hjoint : joint? [("allOf", Json.arr [a, b])] rest key with
        | none => rfl
        | some v =>
            obtain ⟨left, right, hl, hr, -⟩ := joint?_eq_some.mp hjoint
            rw [hnone key (by rw [hr]; exact Option.some_ne_none _)] at hl
            cases hl
      rw [merge_of_unjoined hunjoined]
      have hjoined := combine_joined (a := sideBySide a b) hdistinct
      generalize combine _ (.obj rest) = both at hjoined
      cases hjoined with
      | right he => cases he
      | left _ he => exact absurd (List.isEmpty_iff.mp he) hrest
      | apart _ _ hapart =>
          obtain ⟨key, old, value, hold, hvalue, -⟩ := hapart _ _ rfl rfl
          rw [hnone key (by rw [hvalue]; exact Option.some_ne_none _)] at hold
          cases hold
      | @blended first second made hea heb _ _ hmade _ =>
          obtain rfl := Json.obj.inj hea
          obtain rfl := Json.obj.inj heb
          refine ⟨made, rfl, fun key => ?_⟩
          rw [hmade, Table.get?_cons, hlookup]
          split
          · next hkey => rw [← hkey, hparts]; rfl
          · rw [Table.get?_nil]; rfl

/-- Finishing a finished schema gives an equal one. -/
theorem Finished.finish (hms : (Json.obj members).Distinct) (h : Finished members) :
    (moveRequired (collapseAllOf (.obj members))).same (.obj members) := by
  obtain ⟨made, hmade, hlookup⟩ := h.collapsed hms
  have hdistinct : (Json.obj made).Distinct := hmade ▸ collapseAllOf_distinct hms
  have hsame := Json.same_of_get? hdistinct hms hlookup
  have hunmoved := (h.same hms hdistinct (Json.same_symm hdistinct hms hsame)).unmoved
  rwa [hmade, hunmoved]

/-! ## Schemas that finishing gives back -/

/-- A schema equal to one with nothing but a list is nothing but a list. -/
theorem listing_alone (hv : v.Distinct) (hns : (Json.obj others).Distinct)
    (hlist : Table.get? others "allOf" = some (.arr xs))
    (hnone : ∀ key, "allOf" ≠ key → Table.get? others key = none) (h : v.same (.obj others)) :
    ∃ made kept, v = .obj made ∧ Listing v kept ∧
      ∀ key, Table.get? made key = if "allOf" = key then some (.arr kept) else none := by
  obtain ⟨made, rfl⟩ := Json.same_obj (Json.same_symm hv hns h)
  obtain ⟨list, hget, hsame⟩ := Json.same_member (Json.same_symm hv hns h) hlist
  obtain ⟨kept, rfl, -⟩ := Json.same_arr hsame
  have hmade : ∀ key, Table.get? made key = if "allOf" = key then some (.arr kept) else none := by
    intro key
    split
    · next hkey => rw [← hkey, hget]
    · next hkey =>
        have hrel := (Json.same_obj_iff hv hns).mp h key
        rw [hnone key hkey] at hrel
        generalize Table.get? made key = found at hrel
        cases hrel
        rfl
  exact ⟨made, kept, rfl, ⟨made, rfl, hmade⟩, hmade⟩

/-- A schema that merges, without a loss of weight, with one beside it to a schema with a list
is nothing but that list, when it adds no name. -/
theorem listing_beside {rest : Members} (hv : v.Distinct) (hrest : (Json.obj rest).Distinct)
    (hns : (Json.obj others).Distinct) (hne : rest ≠ [])
    (hlist : Table.get? others "allOf" = some (.arr xs))
    (hfree : Table.get? rest "allOf" = none)
    (hnames : ∀ key, "allOf" ≠ key → (Table.get? rest key = none ↔ Table.get? others key = none))
    (hweight : weight (merge v (.obj rest)) = weight v + weight (.obj rest))
    (h : (merge v (.obj rest)).same (.obj others)) :
    ∃ made kept, merge v (.obj rest) = .obj made ∧ Listing v kept ∧
      ∀ key, Table.get? made key =
        if "allOf" = key then some (.arr kept) else Table.get? rest key := by
  have hdistinct := merge_distinct hv hrest
  have hve : v.isEmpty = false := by
    by_contra hempty
    rw [merge_of_isEmpty (Bool.not_eq_false _ ▸ hempty)] at h
    have hrel := (Json.same_obj_iff hrest hns).mp h "allOf"
    rw [hfree, hlist] at hrel
    cases hrel
  have hreste : (Json.obj rest).isEmpty = false := by
    cases rest with
    | nil => exact absurd rfl hne
    | cons => rfl
  rcases merge_tight hv hrest hve hreste hweight with he | ⟨first, _, made, rfl, he, hmade, hkeys⟩
  · -- side by side they would have no name but that of a list
    rw [he] at h hdistinct
    cases rest with
    | nil => exact absurd rfl hne
    | cons entry rest =>
        obtain ⟨key, value⟩ := entry
        have hget : Table.get? ((key, value) :: rest) key = some value := if_pos rfl
        have hkey : "allOf" ≠ key := by
          rintro rfl
          rw [hfree] at hget
          cases hget
        have hrel := (Json.same_obj_iff hdistinct hns).mp h key
        rw [Table.get?_cons, if_neg hkey, Table.get?_nil] at hrel
        cases hother : Table.get? others key with
        | none =>
            rw [(hnames key hkey).mpr hother] at hget
            cases hget
        | some w =>
            rw [hother] at hrel
            cases hrel
  · obtain rfl := Json.obj.inj he
    rw [hmade] at h hdistinct ⊢
    have hother : ∀ key, "allOf" ≠ key →
        Table.get? first key = none ∧ Table.get? made key = Table.get? rest key := by
      intro key hkey
      obtain ⟨hblend, hsum⟩ := hkeys key
      have hone := keyWeight_le_one hkey (Table.get? made key)
      cases hget : Table.get? rest key with
      | none =>
          have hrel := (Json.same_obj_iff hdistinct hns).mp h key
          rw [(hnames key hkey).mp hget] at hrel
          have hnone : Table.get? made key = none := by
            generalize Table.get? made key = found at hrel
            cases hrel
            rfl
          rw [hnone, keyWeight] at hsum
          exact ⟨eq_none_of_keyWeight hkey (by omega), hnone⟩
      | some w =>
          rw [hget, keyWeight_of_ne (Ne.symm hkey)] at hsum
          have hnone := eq_none_of_keyWeight (u := Table.get? first key) hkey (by omega)
          rw [hnone, hget] at hblend
          exact ⟨hnone, hblend⟩
    obtain ⟨list, hget, hsame⟩ := Json.same_member (Json.same_symm hdistinct hns h) hlist
    obtain ⟨kept, rfl, -⟩ := Json.same_arr hsame
    have hold : Table.get? first "allOf" = some (.arr kept) := by
      have hblend := (hkeys "allOf").1
      rw [hfree, hget] at hblend
      cases hf : Table.get? first "allOf" with
      | none => rw [hf] at hblend; cases hblend
      | some old => rw [hf] at hblend; exact hblend.symm
    refine ⟨made, kept, rfl, ⟨first, rfl, fun key => ?_⟩, fun key => ?_⟩
    · split
      · next hkey => rw [← hkey, hold]
      · next hkey => exact (hother key hkey).1
    · split
      · next hkey => rw [← hkey, hget]
      · next hkey => exact (hother key hkey).2

theorem weights_of_same {kept : List Json} (hkept : ∀ x ∈ kept, x.Distinct)
    (hxs : ∀ x ∈ xs, x.Distinct) (h : List.Forall₂ (fun x y : Json => x.same y) kept xs)
    (hweights : List.Forall₂ (fun x part => weight x = weight part) xs parts) :
    List.Forall₂ (fun x part => weight x = weight part) kept parts := by
  induction h generalizing parts with
  | nil => exact hweights
  | cons hsame _ ih =>
      rw [List.forall_mem_cons] at hkept hxs
      cases hweights with
      | cons hfirst hrest =>
          exact .cons ((weight_same hkept.1 hxs.1 hsame).trans hfirst) (ih hkept.2 hxs.2 hrest)

/-- A schema whose list merges to nothing but a list as heavy is finished, if no requirements
are moved. -/
theorem finished_of_listing {made : Members} {kept : List Json}
    (hms : (Json.obj members).Distinct) (hns : (Json.obj others).Distinct)
    (hmd : (Json.obj made).Distinct) (hparts : Table.get? members "allOf" = some (.arr parts))
    (hdense : ∀ part ∈ parts, Dense part) (hlist : Table.get? others "allOf" = some (.arr xs))
    (hweights : List.Forall₂ (fun x part => weight x = weight part) xs parts)
    (hweight : weight (mergeAll parts) = weightItems parts) (hkept : Listing (mergeAll parts) kept)
    (hmade : ∀ key, Table.get? made key =
      if "allOf" = key then some (.arr kept) else Table.get? members key)
    (hunmoved : moveRequired (.obj made) = .obj made) (h : (Json.obj made).same (.obj others)) :
    Finished members ∧ (Json.obj members).same (.obj others) := by
  have hget : Table.get? made "allOf" = some (.arr kept) := (hmade "allOf").trans (if_pos rfl)
  obtain ⟨list, hlist', hsame⟩ := Json.same_member h hget
  obtain rfl := Option.some.inj (hlist'.symm.trans hlist)
  have hkept' := weights_of_same (Json.distinctItems_iff.mp (hmd.member hget))
    (Json.distinctItems_iff.mp (hns.member hlist)) (Json.sameItems_iff.mp hsame) hweights
  obtain ⟨a, b, rfl, hmerge, rfl⟩ := pair_of_mergeAll hdense
    (Json.distinctItems_iff.mp (hms.member hparts)) hweight hkept hkept'
  have hlookup : ∀ key, Table.get? members key = Table.get? made key := by
    intro key
    rw [hmade]
    split
    · next hkey => rw [← hkey, hparts]
    · rfl
  have hsame := Json.same_of_get? hms hmd hlookup
  refine ⟨⟨fun parts' hparts' => ⟨a, b, ?_, hmerge⟩, ?_⟩, Json.same_trans hsame h⟩
  · exact Json.arr.inj (Option.some.inj (hparts'.symm.trans hparts))
  · exact unmoved_same hmd hms (Json.same_symm hms hmd hsame) hunmoved

/-- Where finishing gives a schema as heavy as it was, the schema was finished, and is equal to
what it became. -/
theorem finished_of_same (hms : (Json.obj members).Distinct) (hns : (Json.obj others).Distinct)
    (hweight : weight (.obj members) = weight (.obj others))
    (hlist : ∀ parts, Table.get? members "allOf" = some (.arr parts) →
      (∀ part ∈ parts, Dense part) ∧ ∃ xs, Table.get? others "allOf" = some (.arr xs) ∧
        List.Forall₂ (fun x part => weight x = weight part) xs parts)
    (hnames : ∀ key, Table.get? members key = none ↔ Table.get? others key = none)
    (h : (moveRequired (collapseAllOf (.obj members))).same (.obj others)) :
    Finished members ∧ (Json.obj members).same (.obj others) := by
  have hdistinct := collapseAllOf_distinct hms
  have hle := weight_collapseAllOf_le hms
  have hsame := weight_same (moveRequired_distinct hdistinct) hns h
  -- moving requirements would have made it lighter
  have hunmoved : moveRequired (collapseAllOf (.obj members)) = collapseAllOf (.obj members) := by
    refine (weight_moveRequired hdistinct).resolve_right fun hlt => ?_
    omega
  rw [hunmoved] at h hsame
  have hcollapsed := Schema.collapsed (.obj members)
  generalize collapseAllOf (.obj members) = w at *
  cases hcollapsed with
  | kept hnot => exact ⟨⟨fun parts hparts => absurd hparts (hnot parts), hunmoved⟩, h⟩
  | @alone _ parts he hparts hrest =>
      obtain rfl := Json.obj.inj he
      obtain ⟨hdense, xs, hxs, hweights⟩ := hlist parts hparts
      have hlookup := Table.get?_swapErase hms.1 "allOf"
      have hbeside := weight_beside hms hparts
      rw [hrest] at hlookup hbeside
      have hmembers : ∀ key, "allOf" ≠ key → Table.get? members key = none := by
        intro key hkey
        have hnone := hlookup key
        rw [if_neg hkey] at hnone
        exact hnone.symm
      obtain ⟨made, kept, hmade, hkept, hget⟩ := listing_alone hdistinct hns hxs
        (fun key hkey => (hnames key).mp (hmembers key hkey)) h
      rw [hmade] at h hdistinct hunmoved
      refine finished_of_listing hms hns hdistinct hparts hdense hxs hweights ?_ hkept ?_ hunmoved h
      · rw [hsame, ← hweight, hbeside]
        rfl
      · intro key
        rw [hget]
        split
        · rfl
        · next hkey => exact (hmembers key hkey).symm
  | @beside _ parts he hparts hrest =>
      obtain rfl := Json.obj.inj he
      obtain ⟨hdense, xs, hxs, hweights⟩ := hlist parts hparts
      have hlookup := Table.get?_swapErase hms.1 "allOf"
      have hbeside := weight_beside hms hparts
      have hdrest := swapErase_distinct hms "allOf"
      generalize Table.swapErase members "allOf" = rest at *
      have hparts' := Json.distinctItems_iff.mp (hms.member hparts)
      have hdmerged := mergeAll_distinct hparts'
      -- neither merging the list nor merging it with the rest makes the schema lighter
      have hmerged := weight_mergeAll_le hparts'
      have hboth := weight_merge_le hdmerged hdrest
      obtain ⟨made, kept, hmade, hkept, hget⟩ := listing_beside hdmerged hdrest hns hrest hxs
        ((hlookup "allOf").trans (if_pos rfl))
        (fun key hkey => by rw [hlookup, if_neg hkey, hnames]) (by omega) h
      rw [hmade] at h hdistinct hunmoved
      refine finished_of_listing hms hns hdistinct hparts hdense hxs hweights (by omega) hkept ?_
        hunmoved h
      intro key
      rw [hget]
      split
      · rfl
      · next hkey => rw [hlookup, if_neg hkey]

end Schema

end SchemaForm
