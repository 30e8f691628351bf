/-
The closure of references is complete.

The rounds of `saturate` are enough: it gives what rounds without a bound on their number
settle on (`saturate_settles`), because every round but the last brings something new from a
finite list, and what they settle on cannot be grown any more (`Settles.closed`).  So the two
tables of a reference graph are the least ones,

    c ∈ closureOf links                      ↔ Chain links c
    s ∈ recursiveOf links (closureOf links)  ↔ Entangled links s

and no bound on rounds shows in what follows from them.
-/
import Mathlib.Data.List.Nodup
import Mathlib.Data.List.Perm.Subperm
import SchemaForm.Proofs.Pointer.Segments
import SchemaForm.Reference.Graph

namespace SchemaForm

/-! ## Growing until nothing is new -/

section Saturate

variable {α : Type} [DecidableEq α] {grow : List α → List α}

theorem nodup_eraseDups (xs : List α) : xs.eraseDups.Nodup := by
  induction h : xs.length using Nat.strongRecOn generalizing xs with
  | ind n ih =>
      cases xs with
      | nil => exact List.nodup_nil
      | cons x xs =>
          rw [List.eraseDups_cons]
          have hlt : (xs.filter fun y => !y == x).length < n := by
            have := List.length_filter_le (fun y => !y == x) xs
            rw [List.length_cons] at h
            omega
          refine List.nodup_cons.mpr ⟨fun hx => ?_, ih _ hlt _ rfl⟩
          rw [List.mem_eraseDups, List.mem_filter] at hx
          simp at hx

/-- What a round adds to the known values. -/
def fresh (grow : List α → List α) (known : List α) : List α :=
  ((grow known).filter fun x => !known.contains x).eraseDups

theorem mem_fresh {known : List α} {x : α} :
    x ∈ fresh grow known ↔ x ∈ grow known ∧ x ∉ known := by
  simp [fresh, List.mem_eraseDups]

theorem saturate_succ (rounds : Nat) (known : List α) :
    saturate grow (rounds + 1) known =
      if fresh grow known = [] then known
      else saturate grow rounds (known ++ fresh grow known) := by
  rw [saturate]
  split
  · next h => exact (if_pos h).symm
  · next h => exact (if_neg h).symm

theorem nodup_append_fresh {known : List α} (hn : known.Nodup) :
    (known ++ fresh grow known).Nodup :=
  List.Nodup.append hn (nodup_eraseDups _) fun _ hx hf => (mem_fresh.mp hf).2 hx

theorem subset_saturate (rounds : Nat) (known : List α) : known ⊆ saturate grow rounds known := by
  induction rounds generalizing known with
  | zero => exact List.Subset.refl _
  | succ rounds ih =>
      rw [saturate_succ]
      split
      · exact List.Subset.refl _
      · exact fun _ hx => ih _ (List.mem_append_left _ hx)

/-- What growing keeps holds of everything that is grown. -/
theorem saturate_induction {P : α → Prop}
    (hgrow : ∀ known, (∀ x ∈ known, P x) → ∀ x ∈ grow known, P x) (rounds : Nat) {known : List α}
    (hk : ∀ x ∈ known, P x) : ∀ x ∈ saturate grow rounds known, P x := by
  induction rounds generalizing known with
  | zero => exact hk
  | succ rounds ih =>
      rw [saturate_succ]
      split
      · exact hk
      · refine ih ?_
        intro x hx
        cases List.mem_append.mp hx with
        | inl hx => exact hk x hx
        | inr hx => exact hgrow known hk x (mem_fresh.mp hx).1

/-- The rounds without a bound on their number: what is new is added until nothing is. -/
inductive Settles (grow : List α → List α) : List α → List α → Prop
  | done {known : List α} : fresh grow known = [] → Settles grow known known
  | round {known result : List α} : fresh grow known ≠ [] →
      Settles grow (known ++ fresh grow known) result → Settles grow known result

/-- What the rounds settle on cannot be grown any more. -/
theorem Settles.closed {known result : List α} (h : Settles grow known result) :
    grow result ⊆ result := by
  induction h with
  | done h =>
      intro x hx
      by_contra hnot
      exact absurd (h ▸ mem_fresh.mpr ⟨hx, hnot⟩) List.not_mem_nil
  | round _ _ ih => exact ih

/-- Where all values come from a list no longer than the rounds and the known
values together, the rounds are enough to settle. -/
theorem saturate_settles (all : List α) (hgrow : ∀ known, known ⊆ all → grow known ⊆ all)
    (rounds : Nat) {known : List α} (hk : known ⊆ all) (hn : known.Nodup)
    (hr : all.length ≤ rounds + known.length) :
    Settles grow known (saturate grow rounds known) := by
  induction rounds generalizing known with
  | zero =>
      have hperm : known.Perm all :=
        (List.subperm_of_subset hn hk).perm_of_length_le (by omega)
      refine .done (List.eq_nil_iff_forall_not_mem.mpr fun x hx => ?_)
      obtain ⟨hx, hnot⟩ := mem_fresh.mp hx
      exact hnot (hperm.symm.subset (hgrow known hk hx))
  | succ rounds ih =>
      rw [saturate_succ]
      split
      · next h => exact .done h
      · next h =>
          have hpos : 0 < (fresh grow known).length := List.length_pos_of_ne_nil h
          refine .round h (ih ?_ (nodup_append_fresh hn) ?_)
          · exact List.append_subset.mpr ⟨hk, fun x hx => hgrow known hk (mem_fresh.mp hx).1⟩
          · rw [List.length_append]
            omega

end Saturate

namespace Graph

variable {links : List Link}

/-! ## Chains -/

/-- A chain of links, each starting at or below the end of the one before it, by
its first source and its last target. -/
inductive Chain (links : List Link) : Link → Prop
  | link {l : Link} : l ∈ links → Chain links l
  | longer {c l : Link} : Chain links c → l ∈ links → Pointer.covers c.target l.source = true →
      Chain links ⟨c.source, l.target⟩

theorem mem_longer {known : List Link} {x : Link} :
    x ∈ longer links known ↔ ∃ c ∈ known, ∃ l ∈ links,
      Pointer.covers c.target l.source = true ∧ x = ⟨c.source, l.target⟩ := by
  simp only [longer, List.mem_flatMap, List.mem_map, List.mem_filter]
  constructor
  · rintro ⟨c, hc, l, ⟨hl, hcl⟩, rfl⟩
    exact ⟨c, hc, l, hl, hcl, rfl⟩
  · rintro ⟨c, hc, l, hl, hcl, rfl⟩
    exact ⟨c, hc, l, ⟨hl, hcl⟩, rfl⟩

/-- Every pair of a source and a target of links. -/
def pairs (links : List Link) : List Link :=
  links.flatMap fun first => links.map fun last => ⟨first.source, last.target⟩

theorem mem_pairs {x : Link} :
    x ∈ pairs links ↔ ∃ first ∈ links, ∃ last ∈ links, x = ⟨first.source, last.target⟩ := by
  simp only [pairs, List.mem_flatMap, List.mem_map, eq_comm]

theorem length_pairs : (pairs links).length = links.length * links.length := by
  simp [pairs, List.length_flatMap]

/-- The closure is what the rounds settle on. -/
theorem closureOf_settles : Settles (longer links) links.eraseDups (closureOf links) := by
  refine saturate_settles (pairs links) ?_ _ ?_ (nodup_eraseDups _) ?_
  · intro known hk x hx
    obtain ⟨c, hc, l, hl, -, rfl⟩ := mem_longer.mp hx
    obtain ⟨first, hf, last, -, rfl⟩ := mem_pairs.mp (hk hc)
    exact mem_pairs.mpr ⟨first, hf, l, hl, rfl⟩
  · intro l hl
    rw [List.mem_eraseDups] at hl
    exact mem_pairs.mpr ⟨l, hl, l, hl, rfl⟩
  · rw [length_pairs]
    omega

theorem longer_closureOf : longer links (closureOf links) ⊆ closureOf links :=
  closureOf_settles.closed

/-- The closure holds the chains and nothing else. -/
theorem mem_closureOf {c : Link} : c ∈ closureOf links ↔ Chain links c := by
  constructor
  · refine saturate_induction (P := Chain links) ?_ _ ?_ c
    · intro known hk x hx
      obtain ⟨c, hc, l, hl, hcl, rfl⟩ := mem_longer.mp hx
      exact .longer (hk c hc) hl hcl
    · intro l hl
      exact .link (List.mem_eraseDups.mp hl)
  · intro h
    induction h with
    | link hl => exact subset_saturate _ _ (List.mem_eraseDups.mpr hl)
    | longer _ hl hcl ih => exact longer_closureOf (mem_longer.mpr ⟨_, ih, _, hl, hcl, rfl⟩)

theorem Chain.source_mem {c : Link} (h : Chain links c) : c.source ∈ links.map Link.source := by
  induction h with
  | link hl => exact List.mem_map.mpr ⟨_, hl, rfl⟩
  | longer _ _ _ ih => exact ih

/-! ## Recursive links -/

/-- The source of a chain that comes back to it, or of a link that starts at or
below the end of a chain from such a source. -/
inductive Entangled (links : List Link) : String → Prop
  | cycle {c : Link} : Chain links c → Pointer.covers c.target c.source = true →
      Entangled links c.source
  | reached {c l : Link} : Entangled links c.source → Chain links c → l ∈ links →
      Pointer.covers c.target l.source = true → Entangled links l.source

theorem mem_entangled {closure : List Link} {known : List String} {s : String} :
    s ∈ entangled links closure known ↔ ∃ c ∈ closure, c.source ∈ known ∧
      ∃ l ∈ links, Pointer.covers c.target l.source = true ∧ l.source = s := by
  simp only [entangled, List.mem_map, List.mem_filter, List.any_eq_true, List.contains_iff_mem]
  constructor
  · rintro ⟨l, ⟨hl, place, ⟨c, ⟨hc, hk⟩, rfl⟩, hcl⟩, rfl⟩
    exact ⟨c, hc, hk, l, hl, hcl, rfl⟩
  · rintro ⟨c, hc, hk, l, hl, hcl, rfl⟩
    exact ⟨l, ⟨hl, c.target, ⟨c, ⟨hc, hk⟩, rfl⟩, hcl⟩, rfl⟩

/-- The sources of the chains that come back to them, each once. -/
def cycleSources (closure : List Link) : List String :=
  ((closure.filter Link.targetsAncestor).map Link.source).eraseDups

theorem mem_cycleSources {closure : List Link} {s : String} :
    s ∈ cycleSources closure ↔
      ∃ c ∈ closure, Pointer.covers c.target c.source = true ∧ c.source = s := by
  simp only [cycleSources, List.mem_eraseDups, List.mem_map, List.mem_filter, and_assoc]
  rfl

/-- The recursive sources are what the rounds settle on. -/
theorem recursiveOf_settles {closure : List Link}
    (hc : ∀ c ∈ closure, c.source ∈ links.map Link.source) :
    Settles (entangled links closure) (cycleSources closure) (recursiveOf links closure) := by
  refine saturate_settles (links.map Link.source) ?_ _ ?_ (nodup_eraseDups _) ?_
  · intro known _ s hs
    obtain ⟨-, -, -, l, hl, -, rfl⟩ := mem_entangled.mp hs
    exact List.mem_map.mpr ⟨l, hl, rfl⟩
  · intro s hs
    obtain ⟨c, hm, -, rfl⟩ := mem_cycleSources.mp hs
    exact hc c hm
  · rw [List.length_map]
    omega

/-- The recursive sources are the entangled ones and no others. -/
theorem mem_recursiveOf {s : String} :
    s ∈ recursiveOf links (closureOf links) ↔ Entangled links s := by
  constructor
  · refine saturate_induction (P := Entangled links) ?_ _ ?_ s
    · intro known hk s hs
      obtain ⟨c, hc, hcs, l, hl, hcl, rfl⟩ := mem_entangled.mp hs
      exact .reached (hk _ hcs) (mem_closureOf.mp hc) hl hcl
    · intro s hs
      obtain ⟨c, hc, ht, rfl⟩ := mem_cycleSources.mp hs
      exact .cycle (mem_closureOf.mp hc) ht
  · intro h
    induction h with
    | cycle hc ht =>
        exact subset_saturate _ _ (mem_cycleSources.mpr ⟨_, mem_closureOf.mpr hc, ht, rfl⟩)
    | reached _ hc hl hcl ih =>
        refine (recursiveOf_settles fun c hc => (mem_closureOf.mp hc).source_mem).closed ?_
        exact mem_entangled.mpr ⟨_, mem_closureOf.mpr hc, ih, _, hl, hcl, rfl⟩

end Graph

end SchemaForm
