/-
Results of all items of a list.

`List.mapM` with a function that may have no result has one if and only if every item has
(`isSome_mapM`), and then the results are those of the items, one by one (`forall₂_of_mapM`).
-/
import Mathlib.Data.List.Forall2

namespace SchemaForm

variable {α β : Type} {f : α → Option β} {xs : List α} {ys : List β}

theorem isSome_mapM : (xs.mapM f).isSome = true ↔ ∀ x ∈ xs, (f x).isSome = true := by
  induction xs with
  | nil => simp
  | cons x xs ih =>
      rw [List.mapM_cons, List.forall_mem_cons, ← ih]
      cases f x <;> cases xs.mapM f <;> simp

theorem mapM_some {g : α → β} (h : ∀ x ∈ xs, f x = some (g x)) : xs.mapM f = some (xs.map g) := by
  induction xs with
  | nil => rfl
  | cons x xs ih =>
      rw [List.forall_mem_cons] at h
      rw [List.mapM_cons, h.1, ih h.2]
      rfl

theorem forall₂_of_mapM (h : xs.mapM f = some ys) : List.Forall₂ (f · = some ·) xs ys := by
  induction xs generalizing ys with
  | nil =>
      rw [List.mapM_nil] at h
      obtain rfl := Option.some.inj h
      exact .nil
  | cons x xs ih =>
      rw [List.mapM_cons] at h
      obtain ⟨y, hy, h⟩ := Option.bind_eq_some_iff.mp h
      obtain ⟨more, hmore, h⟩ := Option.bind_eq_some_iff.mp h
      obtain rfl := Option.some.inj h
      exact .cons hy (ih hmore)

theorem mapM_mem (h : xs.mapM f = some ys) {y : β} (hy : y ∈ ys) : ∃ x ∈ xs, f x = some y := by
  have hall := forall₂_of_mapM h
  clear h
  induction hall with
  | nil => exact absurd hy List.not_mem_nil
  | cons hx _ ih =>
      rcases List.mem_cons.mp hy with rfl | hy
      · exact ⟨_, List.mem_cons_self, hx⟩
      · obtain ⟨x, hm, hx⟩ := ih hy
        exact ⟨x, List.mem_cons_of_mem _ hm, hx⟩

theorem mapM_getElem? (h : xs.mapM f = some ys) {i : Nat} {y : β} (hy : ys[i]? = some y) :
    ∃ x, xs[i]? = some x ∧ f x = some y := by
  have hall := forall₂_of_mapM h
  clear h
  induction hall generalizing i with
  | nil => cases hy
  | cons hx _ ih =>
      cases i with
      | zero => exact ⟨_, rfl, Option.some.inj hy ▸ hx⟩
      | succ i => exact ih hy

theorem map_of_mapM {γ : Type} {g : α → γ} {g' : β → γ} (h : xs.mapM f = some ys)
    (hg : ∀ x y, f x = some y → g' y = g x) : ys.map g' = xs.map g := by
  have hall := forall₂_of_mapM h
  clear h
  induction hall with
  | nil => rfl
  | cons hx _ ih => rw [List.map_cons, List.map_cons, hg _ _ hx, ih]

end SchemaForm
