/-
What tables hold after they are written to.

Writing, erasing and swapping keep the names of a table distinct, and an entry of
the result is one of the table or the one written.
-/
import Mathlib.Data.List.Basic
import Mathlib.Data.List.Nodup
import SchemaForm.Table

namespace SchemaForm

namespace Table

variable {β : Type} {t : Table β} {key name : String} {value : β} {entry : String × β}

theorem mem_of_get? (h : get? t key = some value) : (key, value) ∈ t := by
  induction t with
  | nil => exact absurd h (Option.some_ne_none value).symm
  | cons first rest ih =>
      obtain ⟨name, old⟩ := first
      rw [get?_cons] at h
      split at h
      · next hn =>
          cases h
          exact hn ▸ List.mem_cons_self
      · exact List.mem_cons_of_mem _ (ih h)

theorem get?_of_mem (hn : (names t).Nodup) (h : (key, value) ∈ t) : get? t key = some value := by
  induction t with
  | nil => exact absurd h List.not_mem_nil
  | cons first rest ih =>
      obtain ⟨name, old⟩ := first
      obtain ⟨hnot, hrest⟩ := List.nodup_cons.mp hn
      rw [get?_cons]
      cases List.mem_cons.mp h with
      | inl he =>
          obtain ⟨rfl, rfl⟩ := Prod.mk.inj he
          rw [if_pos rfl]
      | inr h =>
          rw [if_neg, ih hrest h]
          rintro rfl
          exact hnot (List.mem_map.mpr ⟨_, h, rfl⟩)

theorem get?_modify (t : Table β) (key : String) (fresh : β) (f : β → β) (other : String) :
    get? (modify t key fresh f) other =
      if key = other then some (f ((get? t key).getD fresh)) else get? t other := by
  induction t with
  | nil => rfl
  | cons first rest ih =>
      obtain ⟨name, old⟩ := first
      by_cases hn : name = key
      · subst hn
        by_cases ho : name = other <;> simp [modify, get?, ho]
      · by_cases ho : name = other
        · subst ho
          simp [modify, get?, hn, Ne.symm hn]
        · simp [modify, get?, hn, ho, ih]

theorem mem_insert (h : entry ∈ insert t key value) : entry = (key, value) ∨ entry ∈ t := by
  induction t with
  | nil => exact .inl (List.mem_singleton.mp h)
  | cons first rest ih =>
      obtain ⟨name, old⟩ := first
      simp only [insert] at h
      split at h
      · cases List.mem_cons.mp h with
        | inl h => exact .inl h
        | inr h => exact .inr (List.mem_cons_of_mem _ h)
      · cases List.mem_cons.mp h with
        | inl h => exact .inr (h ▸ List.mem_cons_self)
        | inr h => exact (ih h).imp_right (List.mem_cons_of_mem _)

theorem mem_insertSorted (h : entry ∈ insertSorted t key value) :
    entry = (key, value) ∨ entry ∈ t := by
  induction t with
  | nil => exact .inl (List.mem_singleton.mp h)
  | cons first rest ih =>
      obtain ⟨name, old⟩ := first
      simp only [insertSorted] at h
      split at h
      · exact List.mem_cons.mp h
      · split at h
        · cases List.mem_cons.mp h with
          | inl h => exact .inl h
          | inr h => exact .inr (List.mem_cons_of_mem _ h)
        · cases List.mem_cons.mp h with
          | inl h => exact .inr (h ▸ List.mem_cons_self)
          | inr h => exact (ih h).imp_right (List.mem_cons_of_mem _)

theorem get?_insertSorted (t : Table β) (key : String) (value : β) (other : String) :
    get? (insertSorted t key value) other = if key = other then some value else get? t other := by
  induction t with
  | nil => rfl
  | cons first rest ih =>
      obtain ⟨name, old⟩ := first
      simp only [insertSorted]
      split
      · rw [get?_cons]
      · split
        · next hn =>
            subst hn
            simp only [get?_cons]
            split <;> rfl
        · next hn =>
            rw [get?_cons, get?_cons, ih]
            split
            · next ho => rw [if_neg (ho ▸ hn)]
            · rfl

theorem mem_erase (h : entry ∈ erase t key) : entry ∈ t := by
  induction t with
  | nil => exact h
  | cons first rest ih =>
      obtain ⟨name, old⟩ := first
      simp only [erase] at h
      split at h
      · exact List.mem_cons_of_mem _ h
      · cases List.mem_cons.mp h with
        | inl h => exact h ▸ List.mem_cons_self
        | inr h => exact List.mem_cons_of_mem _ (ih h)

theorem get?_erase_of_ne {other : String} (hne : key ≠ other) :
    get? (erase t key) other = get? t other := by
  induction t with
  | nil => rfl
  | cons first rest ih =>
      obtain ⟨name, old⟩ := first
      rw [erase, get?_cons]
      by_cases hn : name = key
      · rw [if_pos hn, if_neg (hn ▸ hne)]
      · rw [if_neg hn, get?_cons, ih]

theorem mem_swapErase (h : entry ∈ swapErase t key) : entry ∈ t := by
  induction t with
  | nil => exact h
  | cons first rest ih =>
      obtain ⟨name, old⟩ := first
      simp only [swapErase] at h
      split at h
      · split at h
        · exact absurd h List.not_mem_nil
        · next last hlast =>
            rcases List.mem_cons.mp h with rfl | h
            · exact List.mem_cons_of_mem _ (List.mem_of_getLast? hlast)
            · exact List.mem_cons_of_mem _ (List.dropLast_subset _ h)
      · cases List.mem_cons.mp h with
        | inl h => exact h ▸ List.mem_cons_self
        | inr h => exact List.mem_cons_of_mem _ (ih h)

/-! ## Distinct names -/

theorem mem_names : name ∈ names t ↔ ∃ value, (name, value) ∈ t := by
  simp [names]

/-- Writing an existing name keeps the names in order. -/
theorem names_insert (h : name ∈ names t) (value : β) : names (insert t name value) = names t := by
  induction t with
  | nil => cases h
  | cons first rest ih =>
      obtain ⟨other, old⟩ := first
      rw [insert]
      split
      · next he => rw [← he]; rfl
      · next hne =>
          have hrest : name ∈ names rest := (List.mem_cons.mp h).resolve_left (Ne.symm hne)
          exact congrArg (other :: ·) (ih hrest)

theorem nodup_insert (h : (names t).Nodup) (key : String) (value : β) :
    (names (insert t key value)).Nodup := by
  induction t with
  | nil => exact List.nodup_singleton _
  | cons first rest ih =>
      obtain ⟨name, old⟩ := first
      obtain ⟨hnot, hrest⟩ := List.nodup_cons.mp h
      rw [insert]
      split
      · next hn => exact hn ▸ h
      · next hn =>
          refine List.nodup_cons.mpr ⟨fun hm => ?_, ih hrest⟩
          obtain ⟨_, hm⟩ := mem_names.mp hm
          cases mem_insert hm with
          | inl he => exact hn (congrArg Prod.fst he)
          | inr hm => exact hnot (mem_names.mpr ⟨_, hm⟩)

theorem names_swapErase_perm (h : (names t).Nodup) :
    (names (swapErase t key)).Perm ((names t).filter (· ≠ key)) := by
  induction t with
  | nil => exact List.Perm.refl _
  | cons first rest ih =>
      obtain ⟨name, old⟩ := first
      obtain ⟨hnot, hrest⟩ := List.nodup_cons.mp h
      rw [swapErase]
      split
      · next hn =>
          subst hn
          have hfilter : (names ((name, old) :: rest)).filter (· ≠ name) = names rest := by
            have hall : ∀ n ∈ names rest, decide (n ≠ name) = true := by
              intro n hm
              exact decide_eq_true fun he => hnot (he ▸ hm)
            rw [show names ((name, old) :: rest) = name :: names rest from rfl,
              List.filter_cons_of_neg (by simp), List.filter_eq_self.mpr hall]
          rw [hfilter]
          cases hlast : rest.getLast? with
          | none =>
              rw [List.getLast?_eq_none_iff.mp hlast]
          | some last =>
              have happend := List.dropLast_append_getLast? last hlast
              have hperm : (last :: rest.dropLast).Perm rest := by
                have hcomm : ([last] ++ rest.dropLast).Perm (rest.dropLast ++ [last]) :=
                  List.perm_append_comm
                rwa [happend] at hcomm
              exact hperm.map _
      · next hn =>
          have hfilter : (names ((name, old) :: rest)).filter (· ≠ key) =
              name :: (names rest).filter (· ≠ key) :=
            List.filter_cons_of_pos (decide_eq_true hn)
          rw [hfilter]
          exact (ih hrest).cons _

theorem nodup_swapErase (h : (names t).Nodup) (key : String) :
    (names (swapErase t key)).Nodup :=
  (names_swapErase_perm h).nodup_iff.mpr (h.filter _)

theorem not_mem_swapErase (h : (names t).Nodup) : (key, value) ∉ swapErase t key := by
  intro hm
  have hname := (names_swapErase_perm h).subset (mem_names.mpr ⟨value, hm⟩)
  exact absurd rfl (of_decide_eq_true (List.mem_filter.mp hname).2)

/-- What is written under a new name can be taken out again. -/
theorem erase_insert (h : key ∉ names t) (value : β) : erase (insert t key value) key = t := by
  induction t with
  | nil => exact if_pos rfl
  | cons first rest ih =>
      obtain ⟨name, old⟩ := first
      rw [names, List.map_cons, List.mem_cons, not_or] at h
      rw [insert, if_neg (Ne.symm h.1), erase, if_neg (Ne.symm h.1), ih h.2]

/-! ## Looking up what is left -/

theorem get?_isSome_iff : (get? t key).isSome ↔ key ∈ names t := by
  constructor
  · intro h
    obtain ⟨value, hvalue⟩ := Option.isSome_iff_exists.mp h
    exact mem_names.mpr ⟨value, mem_of_get? hvalue⟩
  · intro h
    induction t with
    | nil => cases h
    | cons first rest ih =>
        obtain ⟨name, old⟩ := first
        rw [get?_cons]
        split
        · rfl
        · next hne => exact ih ((List.mem_cons.mp h).resolve_left (Ne.symm hne))

theorem get?_of_mem_names (h : key ∈ names t) : ∃ value, get? t key = some value :=
  Option.isSome_iff_exists.mp (get?_isSome_iff.mpr h)

theorem get?_eq_none_iff : get? t key = none ↔ key ∉ names t := by
  rw [← get?_isSome_iff, Option.not_isSome_iff_eq_none]

theorem names_erase (t : Table β) (key : String) : names (erase t key) = (names t).erase key := by
  induction t with
  | nil => rfl
  | cons first rest ih =>
      obtain ⟨name, value⟩ := first
      have hnames : names ((name, value) :: rest) = name :: names rest := rfl
      rw [erase, hnames, List.erase_cons]
      by_cases hn : name = key
      · rw [if_pos hn, if_pos (beq_iff_eq.mpr hn)]
      · rw [if_neg hn, if_neg fun he => hn (beq_iff_eq.mp he), ← ih]
        rfl

theorem nodup_erase (h : (names t).Nodup) (key : String) : (names (erase t key)).Nodup := by
  rw [names_erase]
  exact h.erase key

theorem get?_erase (h : (names t).Nodup) (key other : String) :
    get? (erase t key) other = if key = other then none else get? t other := by
  by_cases he : key = other
  · rw [if_pos he, get?_eq_none_iff, names_erase, he]
    exact h.not_mem_erase
  · rw [if_neg he, get?_erase_of_ne he]

theorem mem_swapErase_of_ne (h : entry ∈ t) (hne : entry.1 ≠ key) : entry ∈ swapErase t key := by
  induction t with
  | nil => exact h
  | cons first rest ih =>
      obtain ⟨name, old⟩ := first
      rw [swapErase]
      split
      · next hname =>
          have hrest : entry ∈ rest := by
            refine (List.mem_cons.mp h).resolve_left ?_
            rintro rfl
            exact hne hname
          cases hlast : rest.getLast? with
          | none =>
              rw [List.getLast?_eq_none_iff.mp hlast] at hrest
              exact absurd hrest List.not_mem_nil
          | some last =>
              rw [← List.dropLast_append_getLast? last hlast] at hrest
              cases List.mem_append.mp hrest with
              | inl hm => exact List.mem_cons_of_mem _ hm
              | inr hm => exact List.mem_singleton.mp hm ▸ List.mem_cons_self
      · cases List.mem_cons.mp h with
        | inl he => exact he ▸ List.mem_cons_self
        | inr hm => exact List.mem_cons_of_mem _ (ih hm)

theorem get?_swapErase (h : (names t).Nodup) (key other : String) :
    get? (swapErase t key) other = if key = other then none else get? t other := by
  split
  · next he =>
      subst he
      rw [get?_eq_none_iff]
      intro hm
      obtain ⟨value, hm⟩ := mem_names.mp hm
      exact not_mem_swapErase h hm
  · next hne =>
      cases hget : get? t other with
      | some value =>
          exact get?_of_mem (nodup_swapErase h key)
            (mem_swapErase_of_ne (mem_of_get? hget) (Ne.symm hne))
      | none =>
          rw [get?_eq_none_iff] at hget ⊢
          intro hm
          obtain ⟨value, hm⟩ := mem_names.mp hm
          exact hget (mem_names.mpr ⟨value, mem_swapErase hm⟩)

theorem length_le_swapErase (t : Table β) (key : String) :
    t.length ≤ (swapErase t key).length + 1 := by
  induction t with
  | nil => exact Nat.zero_le _
  | cons first rest ih =>
      obtain ⟨name, old⟩ := first
      rw [swapErase]
      split
      · cases hlast : rest.getLast? with
        | none => exact Nat.le_of_eq (by rw [List.getLast?_eq_none_iff.mp hlast]; rfl)
        | some last =>
            rw [List.length_cons, List.length_cons, List.length_dropLast]
            omega
      · rw [List.length_cons, List.length_cons]
        omega

/-- Nothing is left of one entry. -/
theorem swapErase_eq_nil (hlength : t.length ≤ 1) (h : get? t key = some value) :
    swapErase t key = [] := by
  match t, hlength, h with
  | [(name, old)], _, h =>
      rw [get?_cons] at h
      split at h
      · next hname => simp only [swapErase, hname, if_true, List.getLast?_nil]
      · cases h

/-! ## Writing one table over another -/

theorem insert_of_not_mem (h : key ∉ names t) : insert t key value = t ++ [(key, value)] := by
  induction t with
  | nil => rfl
  | cons entry rest ih =>
      obtain ⟨name, first⟩ := entry
      rw [names, List.map_cons, List.mem_cons, not_or] at h
      rw [insert, if_neg (Ne.symm h.1), ih h.2, List.cons_append]

/-- Writing what is there changes nothing. -/
theorem insert_of_get? (h : get? t key = some value) : insert t key value = t := by
  induction t with
  | nil => cases h
  | cons entry rest ih =>
      obtain ⟨name, first⟩ := entry
      rw [get?_cons] at h
      rw [insert]
      split
      · next hname =>
          rw [if_pos hname] at h
          rw [Option.some.inj h, hname]
      · next hname =>
          rw [if_neg hname] at h
          rw [ih h]

theorem insert_append {done : Table β} {old : β} (h : key ∉ names done) (rest : Table β) :
    insert (done ++ (key, old) :: rest) key value = done ++ (key, value) :: rest := by
  induction done with
  | nil => rw [List.nil_append, insert, if_pos rfl, List.nil_append]
  | cons entry done ih =>
      obtain ⟨name, first⟩ := entry
      rw [names, List.map_cons, List.mem_cons, not_or] at h
      rw [List.cons_append, insert, if_neg (Ne.symm h.1), ih h.2, List.cons_append]

/-- Where the names of a table begin those of another one, nothing of it is left when the other one
is written over it. -/
theorem insertAll_of_names {more : Table β} (hn : (names more).Nodup) (h : names t <+: names more) :
    insertAll t more = more := by
  suffices hgeneral : ∀ done : Table β, (names (done ++ more)).Nodup →
      insertAll (done ++ t) more = done ++ more from hgeneral [] hn
  clear hn
  induction more generalizing t with
  | nil =>
      intro done _
      obtain rfl : t = [] := List.map_eq_nil_iff.mp (List.prefix_nil.mp h)
      rfl
  | cons entry more ih =>
      obtain ⟨key, value⟩ := entry
      intro done hn
      have hkey : key ∉ names done := by
        rw [names, List.map_append, List.map_cons] at hn
        exact fun hm => List.disjoint_of_nodup_append hn hm List.mem_cons_self
      have hmore : (names ((done ++ [(key, value)]) ++ more)).Nodup := by
        rw [List.append_assoc, List.singleton_append]
        exact hn
      have hwritten : ∃ rest, names rest <+: names more ∧
          insert (done ++ t) key value = (done ++ [(key, value)]) ++ rest := by
        cases t with
        | nil =>
            refine ⟨[], List.nil_prefix, ?_⟩
            rw [List.append_nil, List.append_nil, insert_of_not_mem hkey]
        | cons first rest =>
            obtain ⟨name, old⟩ := first
            obtain ⟨rfl, hrest⟩ := List.cons_prefix_cons.mp h
            refine ⟨rest, hrest, ?_⟩
            rw [insert_append hkey, List.append_assoc, List.singleton_append]
      obtain ⟨rest, hrest, he⟩ := hwritten
      rw [insertAll, List.foldl_cons, he, ← insertAll, ih hrest _ hmore, List.append_assoc,
        List.singleton_append]

end Table

end SchemaForm
