/-
Routes through the links of a document.

A route is a list of links, each starting at or below the place where the one before it ends.
The closure of the links holds the ends of the routes, whatever their length:

    ⟨a, b⟩ ∈ closureOf links  ↔  some route leads from a to b

and the recursive sources are the least set of sources that holds the start of every route back
to itself or above, and the source of every link at or below the end of a route from the set
(`closure_recursive_least`).  Rounds without a bound on their number settle on both.
-/
import Mathlib.Data.List.Chain
import Mathlib.Order.Bounds.Defs
import SchemaForm.Proofs.Reference.Closure

namespace SchemaForm

namespace Graph

variable {links steps : List Link} {l : Link} {a b : String}

/-- The steps are links that lead from one place to another, each starting at or below the
place where the one before it ends. -/
structure Route (links steps : List Link) (a b : String) : Prop where
  known : ∀ l ∈ steps, l ∈ links
  joined : steps.IsChain fun l m => Pointer.covers l.target m.source = true
  starts : steps.head?.map Link.source = some a
  ends : steps.getLast?.map Link.target = some b

/-! ## Routes and chains -/

theorem Route.single (h : l ∈ links) : Route links [l] l.source l.target :=
  ⟨List.forall_mem_singleton.mpr h, .singleton l, rfl, rfl⟩

theorem Route.ne_nil (h : Route links steps a b) : steps ≠ [] := by
  rintro rfl
  cases h.starts

/-- A route goes on with a link that starts at or below its end. -/
theorem Route.concat (h : Route links steps a b) (hl : l ∈ links)
    (hcovers : Pointer.covers b l.source = true) :
    Route links (steps ++ [l]) a l.target := by
  refine ⟨List.forall_mem_append.mpr ⟨h.known, List.forall_mem_singleton.mpr hl⟩, ?_, ?_, ?_⟩
  · refine h.joined.append (.singleton l) fun last hlast next hnext => ?_
    have hends := h.ends
    rw [Option.mem_def.mp hlast] at hends
    obtain rfl := Option.some.inj hends
    obtain rfl := Option.some.inj hnext
    exact hcovers
  · rw [List.head?_append_of_ne_nil _ h.ne_nil]
    exact h.starts
  · rw [List.getLast?_concat]
    rfl

/-- A route is one link, or a shorter route and a link that goes on from its end. -/
theorem Route.concat_inv (h : Route links (steps ++ [l]) a b) :
    l ∈ links ∧ b = l.target ∧ (steps = [] ∧ a = l.source ∨
      ∃ place, Route links steps a place ∧ Pointer.covers place l.source = true) := by
  obtain ⟨hknown, hjoined, hstarts, hends⟩ := h
  obtain ⟨hbefore, hl⟩ := List.forall_mem_append.mp hknown
  obtain ⟨hsteps, -, hmeet⟩ := List.isChain_append.mp hjoined
  rw [List.getLast?_concat] at hends
  refine ⟨List.forall_mem_singleton.mp hl, (Option.some.inj hends).symm, ?_⟩
  cases hlast : steps.getLast? with
  | none =>
      obtain rfl := List.getLast?_eq_none_iff.mp hlast
      exact .inl ⟨rfl, (Option.some.inj hstarts).symm⟩
  | some last =>
      have hne : steps ≠ [] := by
        rintro rfl
        cases hlast
      rw [List.head?_append_of_ne_nil _ hne] at hstarts
      refine .inr ⟨last.target, ⟨hbefore, hsteps, hstarts, ?_⟩, ?_⟩
      · rw [hlast]
        rfl
      · exact hmeet last hlast l rfl

/-- Chains are routes, by where they start and end. -/
theorem chain_iff : Chain links ⟨a, b⟩ ↔ ∃ steps, Route links steps a b := by
  constructor
  · suffices hroute : ∀ {c}, Chain links c → ∃ steps, Route links steps c.source c.target from
      fun h => hroute h
    intro c h
    induction h with
    | link hl => exact ⟨_, .single hl⟩
    | longer _ hl hcovers ih =>
        obtain ⟨steps, hroute⟩ := ih
        have hlonger := hroute.concat hl hcovers
        exact ⟨_, hlonger⟩
  · rintro ⟨steps, h⟩
    induction steps using List.reverseRecOn generalizing b with
    | nil => exact absurd rfl h.ne_nil
    | append_singleton steps l ih =>
        obtain ⟨hl, rfl, ⟨-, rfl⟩ | ⟨place, hroute, hcovers⟩⟩ := h.concat_inv
        · exact .link hl
        · exact .longer (ih hroute) hl hcovers

/-! ## The least set -/

/-- A set of sources of links that holds the start of every route back to itself or above, and
the source of every link at or below the end of a route that starts in the set. -/
structure Sweeping (links : List Link) (sources : Set String) : Prop where
  known : ∀ a ∈ sources, ∃ l ∈ links, l.source = a
  cycles : ∀ steps a b, Route links steps a b → Pointer.covers b a = true → a ∈ sources
  reached : ∀ steps a b, a ∈ sources → Route links steps a b →
    ∀ l ∈ links, Pointer.covers b l.source = true → l.source ∈ sources

theorem Entangled.source_mem (h : Entangled links a) : ∃ l ∈ links, l.source = a := by
  cases h with
  | cycle hc _ => exact List.mem_map.mp hc.source_mem
  | reached _ _ hl _ => exact ⟨_, hl, rfl⟩

theorem sweeping_entangled : Sweeping links {a | Entangled links a} where
  known _ ha := ha.source_mem
  cycles steps a b hroute hcovers :=
    Entangled.cycle (c := ⟨a, b⟩) (chain_iff.mpr ⟨steps, hroute⟩) hcovers
  reached steps a b ha hroute _ hl hcovers :=
    Entangled.reached (c := ⟨a, b⟩) ha (chain_iff.mpr ⟨steps, hroute⟩) hl hcovers

theorem Sweeping.of_entangled {sources : Set String} (h : Sweeping links sources)
    (ha : Entangled links a) : a ∈ sources := by
  induction ha with
  | cycle hc hcovers =>
      obtain ⟨steps, hroute⟩ := chain_iff.mp hc
      exact h.cycles steps _ _ hroute hcovers
  | reached _ hc hl hcovers ih =>
      obtain ⟨steps, hroute⟩ := chain_iff.mp hc
      exact h.reached steps _ _ ih hroute _ hl hcovers

/-- **The tables of references are the least ones.**  The closure holds the two ends of every
route and nothing else, the recursive sources are the least sweeping set, and the rounds that
gather the two come to an end. -/
theorem closure_recursive_least (links : List Link) :
    (∀ a b, ⟨a, b⟩ ∈ closureOf links ↔ ∃ steps, Route links steps a b) ∧
      IsLeast {sources | Sweeping links sources}
        {a | a ∈ recursiveOf links (closureOf links)} ∧
      Settles (longer links) links.eraseDups (closureOf links) ∧
      Settles (entangled links (closureOf links)) (cycleSources (closureOf links))
        (recursiveOf links (closureOf links)) := by
  have hrecursive : {a | a ∈ recursiveOf links (closureOf links)} = {a | Entangled links a} :=
    Set.ext fun _ => mem_recursiveOf
  refine ⟨fun a b => mem_closureOf.trans chain_iff, ?_, closureOf_settles, ?_⟩
  · rw [hrecursive]
    exact ⟨sweeping_entangled, fun _ h _ => h.of_entangled⟩
  · exact recursiveOf_settles fun _ hc => (mem_closureOf.mp hc).source_mem

/-- Two places that refer to each other are recursive, and a place that only leads there is not. -/
example :
    let links : List Link := [⟨"/a", "/b"⟩, ⟨"/b/c", "/a"⟩, ⟨"/d", "/a"⟩]
    recursiveOf links (closureOf links) = ["/a", "/b/c"] := by
  decide

end Graph

end SchemaForm
