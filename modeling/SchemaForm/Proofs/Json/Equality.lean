/-
Equality of values, whatever the order of members.

Two objects are compared by the first one's members, each looked up by its name in the
second, and by their number.  On values without double names that is equality of all
lookups (`same_obj_iff`), and an equivalence (`same_refl`, `same_symm`, `same_trans`).
-/
import Mathlib.Data.List.Perm.Subperm
import SchemaForm.Proofs.Json.Places

namespace SchemaForm

theorem Number.same_trans {l m n : Number} (h : l.same m) (h' : m.same n) : l.same n := by
  cases l <;> cases m <;> cases n <;>
    simp_all [Number.same, Binary64.same]

namespace Json

variable {a b c v w : Json} {xs ys zs : List Json} {ms ns : Members} {key : String}

theorem sameItems_iff : sameItems xs ys ↔ List.Forall₂ (fun x y => x.same y) xs ys := by
  induction xs generalizing ys with
  | nil => cases ys <;> simp [sameItems]
  | cons x xs ih =>
      cases ys with
      | nil => simp [sameItems]
      | cons y ys => rw [sameItems, Bool.and_eq_true, ih, List.forall₂_cons]

theorem forall₂_mem {R : Json → Json → Prop} (h : List.Forall₂ R xs ys) (hv : v ∈ xs) :
    ∃ w ∈ ys, R v w := by
  induction h with
  | nil => exact absurd hv List.not_mem_nil
  | cons hrel _ ih =>
      cases List.mem_cons.mp hv with
      | inl he => exact ⟨_, List.mem_cons_self, he ▸ hrel⟩
      | inr hv =>
          obtain ⟨w, hw, hrel⟩ := ih hv
          exact ⟨w, List.mem_cons_of_mem _ hw, hrel⟩

theorem forall₂_mem_right {R : Json → Json → Prop} (h : List.Forall₂ R xs ys) (hw : w ∈ ys) :
    ∃ v ∈ xs, R v w :=
  forall₂_mem h.flip hw

theorem sameMembers_iff :
    sameMembers ms ns ↔ ∀ key v, (key, v) ∈ ms → ∃ w, Table.get? ns key = some w ∧ v.same w := by
  induction ms with
  | nil => exact ⟨fun _ _ _ hm => absurd hm List.not_mem_nil, fun _ => rfl⟩
  | cons entry rest ih =>
      obtain ⟨name, value⟩ := entry
      rw [sameMembers, Bool.and_eq_true, ih]
      constructor
      · rintro ⟨hfirst, hrest⟩ key v hm
        cases List.mem_cons.mp hm with
        | inl he =>
            obtain ⟨rfl, rfl⟩ := Prod.mk.inj he
            split at hfirst
            · next w hw => exact ⟨w, hw, hfirst⟩
            · cases hfirst
        | inr hm => exact hrest key v hm
      · intro h
        obtain ⟨w, hw, hsame⟩ := h name value List.mem_cons_self
        refine ⟨?_, fun key v hm => h key v (List.mem_cons_of_mem _ hm)⟩
        rw [hw]
        exact hsame

/-- What one of two equal objects holds, the other one holds too. -/
theorem same_member (h : (obj ms).same (obj ns)) (hv : Table.get? ms key = some v) :
    ∃ w, Table.get? ns key = some w ∧ v.same w := by
  rw [same, Bool.and_eq_true] at h
  exact sameMembers_iff.mp h.2 key v (Table.mem_of_get? hv)

theorem same_arr (h : (arr xs).same b) : ∃ ys, b = arr ys ∧ List.Forall₂ (·.same ·) xs ys := by
  cases b with
  | arr ys => exact ⟨ys, rfl, sameItems_iff.mp h⟩
  | _ => cases h

theorem same_obj (h : (obj ms).same b) : ∃ ns, b = obj ns := by
  cases b with
  | obj ns => exact ⟨ns, rfl⟩
  | _ => cases h

theorem same_str {s : String} (h : (str s).same b) : b = str s := by
  cases b with
  | str t =>
      rw [same, beq_iff_eq] at h
      rw [h]
  | _ => cases h

/-! ## An equivalence -/

mutual

theorem same_refl : ∀ {j : Json}, j.Distinct → j.same j
  | .null, _ | .bool _, _ | .str _, _ => by simp [same]
  | .num n, _ => n.same_refl
  | .arr _, h => sameItems_refl h
  | .obj members, h => by
      rw [same, beq_self_eq_true, Bool.true_and]
      refine sameMembers_iff.mpr fun key v hm => ?_
      exact ⟨v, Table.get?_of_mem h.1 hm, sameEntries_refl h.2 (key, v) hm⟩

theorem sameItems_refl : ∀ {xs : List Json}, DistinctItems xs → sameItems xs xs
  | [], _ => rfl
  | x :: xs, h => by
      rw [sameItems, same_refl h.1, sameItems_refl h.2]
      rfl

theorem sameEntries_refl :
    ∀ {ms : List (String × Json)}, DistinctMembers ms → ∀ entry ∈ ms, entry.2.same entry.2
  | [], _, _, hm => absurd hm List.not_mem_nil
  | (_, _) :: _, h, entry, hm => by
      cases List.mem_cons.mp hm with
      | inl he => exact he ▸ same_refl h.1
      | inr hm => exact sameEntries_refl h.2 entry hm

end

mutual

theorem same_trans : ∀ {a b c : Json}, a.same b → b.same c → a.same c
  | .arr xs, b, c, h, h' => by
      obtain ⟨ys, rfl, -⟩ := same_arr h
      obtain ⟨zs, rfl, -⟩ := same_arr h'
      exact sameItems_trans h h'
  | .obj ms, b, c, h, h' => by
      obtain ⟨ns, rfl⟩ := same_obj h
      obtain ⟨os, rfl⟩ := same_obj h'
      have hlength : ms.length = os.length := by
        simp only [same, Bool.and_eq_true, beq_iff_eq] at h h'
        exact h.1.trans h'.1
      rw [same, hlength, beq_self_eq_true, Bool.true_and]
      refine sameMembers_iff.mpr fun key v hm => ?_
      rw [same, Bool.and_eq_true] at h
      obtain ⟨w, hw, hvw⟩ := sameMembers_iff.mp h.2 key v hm
      obtain ⟨u, hu, hwu⟩ := same_member h' hw
      exact ⟨u, hu, sameEntries_trans (key, v) hm hvw hwu⟩
  | .num l, .num m, .num n, h, h' => Number.same_trans h h'
  | .null, b, c, h, h' | .bool _, b, c, h, h' | .str _, b, c, h, h' => by
      cases b <;> cases c <;> simp_all [same]

theorem sameItems_trans :
    ∀ {xs ys zs : List Json}, sameItems xs ys → sameItems ys zs → sameItems xs zs
  | [], [], [], _, _ => rfl
  | x :: xs, y :: ys, z :: zs, h, h' => by
      simp only [sameItems, Bool.and_eq_true] at h h' ⊢
      exact ⟨same_trans h.1 h'.1, sameItems_trans h.2 h'.2⟩

theorem sameEntries_trans :
    ∀ {ms : List (String × Json)}, ∀ entry ∈ ms, ∀ {b c : Json},
      entry.2.same b → b.same c → entry.2.same c
  | [], _, hm, _, _, _, _ => absurd hm List.not_mem_nil
  | (_, _) :: _, entry, hm, _, _, h, h' => by
      cases List.mem_cons.mp hm with
      | inl he => exact he ▸ same_trans (he ▸ h) h'
      | inr hm => exact sameEntries_trans entry hm h h'

end

/-- Equal objects have the same names. -/
theorem same_names (hms : (Table.names ms).Nodup) (h : (obj ms).same (obj ns)) :
    (Table.names ms).Perm (Table.names ns) := by
  have hsub : Table.names ms ⊆ Table.names ns := by
    intro key hkey
    obtain ⟨v, hv⟩ := Table.mem_names.mp hkey
    obtain ⟨w, hw, -⟩ := same_member h (Table.get?_of_mem hms hv)
    exact Table.mem_names.mpr ⟨w, Table.mem_of_get? hw⟩
  have hlength : (Table.names ns).length ≤ (Table.names ms).length := by
    simp only [same, Bool.and_eq_true, beq_iff_eq] at h
    simp only [Table.names, List.length_map, h.1, Nat.le_refl]
  exact (List.subperm_of_subset hms hsub).perm_of_length_le hlength

mutual

theorem same_symm : ∀ {a b : Json}, a.Distinct → b.Distinct → a.same b → b.same a
  | .arr xs, b, ha, hb, h => by
      obtain ⟨ys, rfl, -⟩ := same_arr h
      exact sameItems_symm ha hb h
  | .obj ms, b, ha, hb, h => by
      obtain ⟨ns, rfl⟩ := same_obj h
      have hnames := same_names ha.1 h
      have hlength : ns.length = ms.length := by
        simpa only [Table.names, List.length_map] using hnames.length_eq.symm
      rw [same, hlength, beq_self_eq_true, Bool.true_and]
      refine sameMembers_iff.mpr fun key w hm => ?_
      obtain ⟨v, hv⟩ := Table.mem_names.mp (hnames.mem_iff.mpr (Table.mem_names.mpr ⟨w, hm⟩))
      obtain ⟨w', hw', hsame⟩ := same_member h (Table.get?_of_mem ha.1 hv)
      obtain rfl : w' = w := Option.some.inj (hw'.symm.trans (Table.get?_of_mem hb.1 hm))
      refine ⟨v, Table.get?_of_mem ha.1 hv, ?_⟩
      exact sameEntries_symm ha.2 (key, v) hv (distinctMembers_iff.mp hb.2 _ hm) hsame
  | .num m, .num n, _, _, h => (m.same_comm n).symm.trans h
  | .null, b, _, _, h | .bool _, b, _, _, h | .str _, b, _, _, h => by
      cases b <;> simp_all [same]

theorem sameItems_symm : ∀ {xs ys : List Json}, DistinctItems xs → DistinctItems ys →
    sameItems xs ys → sameItems ys xs
  | [], [], _, _, _ => rfl
  | x :: xs, y :: ys, hx, hy, h => by
      simp only [sameItems, Bool.and_eq_true] at h ⊢
      exact ⟨same_symm hx.1 hy.1 h.1, sameItems_symm hx.2 hy.2 h.2⟩

theorem sameEntries_symm :
    ∀ {ms : List (String × Json)}, DistinctMembers ms → ∀ entry ∈ ms, ∀ {b : Json},
      b.Distinct → entry.2.same b → b.same entry.2
  | [], _, _, hm, _, _, _ => absurd hm List.not_mem_nil
  | (_, _) :: _, hd, entry, hm, _, hb, h => by
      cases List.mem_cons.mp hm with
      | inl he => exact he ▸ same_symm hd.1 hb (he ▸ h)
      | inr hm => exact sameEntries_symm hd.2 entry hm hb h

end

/-- Two objects are equal when every name has equal values, or none, in both. -/
theorem same_obj_iff (hms : (obj ms).Distinct) (hns : (obj ns).Distinct) :
    (obj ms).same (obj ns) ↔
      ∀ key, Option.Rel (·.same ·) (Table.get? ms key) (Table.get? ns key) := by
  constructor
  · intro h key
    cases hv : Table.get? ms key with
    | some v =>
        obtain ⟨w, hw, hsame⟩ := same_member h hv
        rw [hw]
        exact .some hsame
    | none =>
        have hnone : Table.get? ns key = none := by
          rw [Table.get?_eq_none_iff] at hv ⊢
          exact fun hmem => hv ((same_names hms.1 h).mem_iff.mpr hmem)
        rw [hnone]
        exact .none
  · intro h
    have hiff : ∀ key, key ∈ Table.names ms ↔ key ∈ Table.names ns := by
      intro key
      have hrel := h key
      rw [← Table.get?_isSome_iff, ← Table.get?_isSome_iff]
      generalize Table.get? ms key = found at hrel
      generalize Table.get? ns key = other at hrel
      cases hrel <;> simp
    have hperm : (Table.names ms).Perm (Table.names ns) :=
      (List.perm_ext_iff_of_nodup hms.1 hns.1).mpr hiff
    have hlength : ms.length = ns.length := by
      simpa only [Table.names, List.length_map] using hperm.length_eq
    rw [same, hlength, beq_self_eq_true, Bool.true_and]
    refine sameMembers_iff.mpr fun key v hm => ?_
    have hrel := h key
    rw [Table.get?_of_mem hms.1 hm] at hrel
    cases hw : Table.get? ns key with
    | some w =>
        rw [hw] at hrel
        cases hrel with
        | some hsame => exact ⟨w, rfl, hsame⟩
    | none =>
        rw [hw] at hrel
        cases hrel

/-- Objects with one value under every name are equal. -/
theorem same_of_get? (hms : (obj ms).Distinct) (hns : (obj ns).Distinct)
    (h : ∀ key, Table.get? ms key = Table.get? ns key) : (obj ms).same (obj ns) := by
  rw [same_obj_iff hms hns]
  intro key
  rw [← h key]
  cases hv : Table.get? ms key with
  | none => exact .none
  | some v => exact .some (same_refl (hms.member hv))

/-- Equal values have equal members, or none, under every name. -/
theorem same_get?_rel (ha : a.Distinct) (hb : b.Distinct) (h : a.same b) (key : String) :
    Option.Rel (·.same ·) (a.get? key) (b.get? key) := by
  cases a with
  | obj ms =>
      obtain ⟨ns, rfl⟩ := same_obj h
      exact (same_obj_iff ha hb).mp h key
  | _ =>
      cases b with
      | obj ns => cases h
      | _ => exact .none

theorem same_get?_isSome (ha : a.Distinct) (hb : b.Distinct) (h : a.same b) (key : String) :
    (a.get? key).isSome = (b.get? key).isSome := by
  have hrel := same_get?_rel ha hb h key
  generalize a.get? key = found at hrel
  generalize b.get? key = other at hrel
  cases hrel <;> rfl

/-- Two steps down, equal values have a member or none. -/
theorem same_bind_isSome (ha : a.Distinct) (hb : b.Distinct) (h : a.same b) (key name : String) :
    ((a.get? key).bind (·.get? name)).isSome = ((b.get? key).bind (·.get? name)).isSome := by
  have hrel := same_get?_rel ha hb h key
  cases hv : a.get? key with
  | none =>
      rw [hv] at hrel
      cases hw : b.get? key with
      | none => rfl
      | some w => rw [hw] at hrel; cases hrel
  | some v =>
      rw [hv] at hrel
      cases hw : b.get? key with
      | none => rw [hw] at hrel; cases hrel
      | some w =>
          rw [hw] at hrel
          cases hrel with
          | some hsame => exact same_get?_isSome (ha.get? hv) (hb.get? hw) hsame name

theorem same_isEmpty (h : a.same b) : a.isEmpty = b.isEmpty := by
  cases a with
  | arr xs =>
      obtain ⟨ys, rfl, hitems⟩ := same_arr h
      cases hitems <;> rfl
  | obj ms =>
      obtain ⟨ns, rfl⟩ := same_obj h
      rw [same, Bool.and_eq_true, beq_iff_eq] at h
      cases ms with
      | nil => rw [List.eq_nil_of_length_eq_zero h.1.symm]
      | cons =>
          cases ns with
          | nil => cases h.1
          | cons => rfl
  | null | bool _ | num _ | str _ =>
      cases b with
      | null | bool _ | num _ | str _ => first | rfl | cases h
      | arr _ | obj _ => cases h

theorem same_real?_isSome (h : a.same b) : a.real?.isSome = b.real?.isSome := by
  cases a with
  | num m =>
      cases b with
      | num n => cases m <;> cases n <;> simp_all [same, Number.same, real?, Number.toReal?]
      | _ => cases h
  | _ =>
      cases b with
      | num n => cases h
      | _ => rfl

/-! ## Membership up to equality -/

theorem contains_iff : xs.contains v ↔ ∃ x ∈ xs, v.same x := by
  rw [List.contains_eq_any_beq, List.any_eq_true]
  rfl

end Json

end SchemaForm
