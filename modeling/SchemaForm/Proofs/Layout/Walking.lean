/-
Walking through a forest of nodes.

`Node.mapForest` calls its step for every node, and each call may see what the ones before it have
left in the state.  `Walks` is the big-step relation of that: from one state to another, with the
calls that were made in a tree of visits that has the shape of the forest.  The visits, contents
first, are the calls in the order in which they are made (`Walks.logged`), and what they made is the
result (`Walks.run`).

The pointer of a call is fixed before it is known what will become of the nodes around it.  It is
the position of the node in the result if all of these are kept, each as one node, whatever becomes
of the others (`Walks.keeps_position`).
-/
import Mathlib.Algebra.GroupWithZero.Nat
import SchemaForm.Proofs.Layout.Placing

namespace SchemaForm

namespace Pointer

/-- The text of a position in a forest: the index of each node among its siblings, from the top
down. -/
def position (above : String) (path : List Nat) : String :=
  above ++ "/" ++ "/items/".intercalate (path.map Nat.repr)

theorem position_singleton (above : String) (index : Nat) :
    position above [index] = item above index := by
  simp [position, item]

theorem position_cons_cons (above : String) (index next : Nat) (path : List Nat) :
    position above (index :: next :: path) =
      position (item above index ++ "/items") (next :: path) := by
  have hslash : "/items/" = "/items" ++ "/" := rfl
  simp only [position, item, List.map_cons, String.intercalate_cons_cons, hslash,
    String.append_assoc]

end Pointer

namespace Node

variable {σ : Type}

/-- The node at a position of a forest. -/
def at? : List Nat → List Node → Option Node
  | [], _ => none
  | [index], ns => ns[index]?
  | index :: path, ns => (ns[index]?).bind fun n => at? path n.items

/-- Nodes that follow others. -/
theorem at?_append (ns ms : List Node) (index : Nat) (path : List Nat) :
    at? ((ns.length + index) :: path) (ns ++ ms) = at? (index :: path) ms := by
  have hget : (ns ++ ms)[ns.length + index]? = ms[index]? := by
    rw [List.getElem?_append_right (Nat.le_add_right _ _), Nat.add_sub_cancel_left]
  cases path <;> simp only [at?, hget]

/-! ## Steps -/

/-- What a step was given for a node, and what it made of it. -/
structure Call where
  given : Node
  index : Nat
  pointer : String
  made : Mapped Node

namespace Step

/-- The nodes that the step makes contain what it was given. -/
def Keeps (f : Step (StateM σ)) : Prop :=
  ∀ given index pointer s, ∀ n ∈ ((f given index pointer).run s).1.toList, n.items = given.items

/-- A node that the step keeps as one has the pointer that the step was given. -/
def Stores (f : Step (StateM σ)) (read : Control → String) : Prop :=
  ∀ given index pointer s kept, ((f given index pointer).run s).1 = .one kept →
    read kept.control = pointer

/-- The step with a log of its calls beside the state. -/
def logged (f : Step (StateM σ)) : Step (StateM (List Call × σ)) :=
  fun given index pointer => modifyGet fun before =>
    let result := (f given index pointer).run before.2
    (result.1, before.1 ++ [⟨given, index, pointer, result.1⟩], result.2)

end Step

/-! ## Visits -/

/-- The call for a node, with the visits of what the node contains. -/
inductive Visit where
  | mk (call : Call) (within : List Visit)

namespace Visit

def call : Visit → Call
  | mk call _ => call

def within : Visit → List Visit
  | mk _ within => within

/-- The nodes that are made of the one that is visited. -/
def made (v : Visit) : List Node := v.call.made.toList

/-- The nodes that are made in a row of visits. -/
def outcome (vs : List Visit) : List Node := vs.flatMap made

mutual

/-- The node that is visited, as it was before. -/
def source : Visit → Node
  | mk call within => .mk call.given.control (sourceAll within)

def sourceAll : List Visit → List Node
  | [] => []
  | v :: rest => source v :: sourceAll rest

end

mutual

/-- The visits, what a node contains before the node itself. -/
def visited : Visit → List Visit
  | mk call within => visitedAll within ++ [mk call within]

def visitedAll : List Visit → List Visit
  | [] => []
  | v :: rest => visited v ++ visitedAll rest

end

/-- The visit of a node that is kept as one, below nodes that are kept as one, and the position of
the node in what is made. -/
inductive Kept : List Visit → List Nat → Visit → Prop
  | here {v : Visit} {rest : List Visit} {kept : Node} (h : v.call.made = .one kept) :
      Kept (v :: rest) [0] v
  | within {v w : Visit} {rest : List Visit} {kept : Node} {path : List Nat}
      (h : v.call.made = .one kept) (hwithin : Kept v.within path w) :
      Kept (v :: rest) (0 :: path) w
  | after {v w : Visit} {rest : List Visit} {index : Nat} {path : List Nat}
      (h : Kept rest (index :: path) w) : Kept (v :: rest) ((v.made.length + index) :: path) w

theorem outcome_cons (v : Visit) (rest : List Visit) :
    outcome (v :: rest) = v.made ++ outcome rest :=
  List.flatMap_cons

/-- As many nodes are made as the visits make together. -/
theorem length_outcome (vs : List Visit) :
    (outcome vs).length = (vs.map fun v => v.made.length).sum :=
  List.length_flatMap

mutual

/-- The visits are made to the nodes of the forest, contents first. -/
theorem controls_visited : ∀ v : Visit, v.visited.map (·.call.given.control) = v.source.postorder
  | mk call within => by
      rw [visited, List.map_append, controls_visitedAll within, source, Node.postorder]
      rfl

theorem controls_visitedAll : ∀ vs : List Visit,
    (visitedAll vs).map (·.call.given.control) = Node.postorderAll (sourceAll vs)
  | [] => rfl
  | v :: rest => by
      rw [visitedAll, List.map_append, controls_visited v, controls_visitedAll rest, sourceAll,
        Node.postorderAll]

end

theorem mem_visitedAll {w : Visit} {vs : List Visit} :
    w ∈ visitedAll vs ↔ ∃ v ∈ vs, w = v ∨ w ∈ visitedAll v.within := by
  induction vs with
  | nil => simp [visitedAll]
  | cons v rest ih =>
      cases v with
      | mk call within =>
          rw [visitedAll, visited, List.mem_append, List.mem_append, List.mem_singleton, ih,
            List.exists_mem_cons_iff]
          exact or_congr_left or_comm

/-- What is true of the visits of a row is true of those within one of them. -/
theorem forall_visited_within {P : Visit → Prop} {vs : List Visit} (h : ∀ w ∈ visitedAll vs, P w)
    {v : Visit} (hv : v ∈ vs) : ∀ w ∈ visitedAll v.within, P w :=
  fun w hw => h w (mem_visitedAll.mpr ⟨v, hv, .inr hw⟩)

theorem Kept.path_eq_cons {vs : List Visit} {path : List Nat} {w : Visit} (h : Kept vs path w) :
    ∃ index rest, path = index :: rest := by
  cases h with
  | here => exact ⟨_, _, rfl⟩
  | within => exact ⟨_, _, rfl⟩
  | after => exact ⟨_, _, rfl⟩

end Visit

/-! ## Walks -/

open Visit

/-- A walk through the nodes of a row, the first of which has the index, from one state to
another. -/
inductive Walks (f : Step (StateM σ)) : String → Nat → List Node → σ → List Visit → σ → Prop
  | nil {above : String} {index : Nat} {s : σ} : Walks f above index [] s [] s
  | cons {above : String} {index : Nat} {c : Control} {items rest : List Node} {s s₁ s₂ s₃ : σ}
      {within more : List Visit} {made : Mapped Node}
      (hwithin : Walks f (Pointer.item above index ++ "/items") 0 items s within s₁)
      (hcall : (f (.mk c (outcome within)) index (Pointer.item above index)).run s₁ = (made, s₂))
      (hmore : Walks f above (index + made.toList.length) rest s₂ more s₃) :
      Walks f above index (.mk c items :: rest) s
        (.mk ⟨.mk c (outcome within), index, Pointer.item above index, made⟩ within :: more) s₃

/-- There is a walk through every forest. -/
theorem exists_walk (f : Step (StateM σ)) :
    ∀ (ns : List Node) (above : String) (index : Nat) (s : σ),
      ∃ vs s', Walks f above index ns s vs s'
  | [], _, _, s => ⟨[], s, .nil⟩
  | .mk _ items :: rest, above, index, s => by
      obtain ⟨within, s₁, hwithin⟩ := exists_walk f items (Pointer.item above index ++ "/items") 0 s
      obtain ⟨more, s₃, hmore⟩ := exists_walk f rest above _ _
      exact ⟨_, s₃, .cons hwithin rfl hmore⟩

namespace Walks

variable {f : Step (StateM σ)} {above : String} {index : Nat} {ns : List Node} {s s' : σ}
  {vs : List Visit}

/-- The nodes are mapped to what the visits make. -/
theorem run (h : Walks f above index ns s vs s') :
    (mapForest f above index ns).run s = (outcome vs, s') := by
  induction h with
  | nil => rfl
  | @cons above index c items rest s s₁ s₂ s₃ within more made _ hcall _ ihwithin ihmore =>
      have htree : (mapTree f above index (.mk c items)).run s = (made, s₂) := by
        rw [mapTree, StateT.run_bind, ihwithin]
        exact hcall
      rw [mapForest, StateT.run_bind, htree]
      show StateT.run (m := Id) (do
        let more ← mapForest f above (index + made.toList.length) rest
        pure (made.toList ++ more)) s₂ = _
      rw [StateT.run_bind, ihmore]
      rfl

/-- With a log the walk is the same, and the log has its calls, contents first. -/
theorem logged (h : Walks f above index ns s vs s') (log : List Call) :
    Walks f.logged above index ns (log, s) vs (log ++ (visitedAll vs).map call, s') := by
  induction h generalizing log with
  | nil => simpa [visitedAll] using Walks.nil
  | @cons above index c items rest s s₁ s₂ s₃ within more made _ hcall _ ihwithin ihmore =>
      let made' : Call := ⟨.mk c (outcome within), index, Pointer.item above index, made⟩
      have hlogged : (f.logged (.mk c (outcome within)) index (Pointer.item above index)).run
          (log ++ (visitedAll within).map call, s₁) =
            (made, log ++ (visitedAll within).map call ++ [made'], s₂) := by
        show (_, _, _) = _
        rw [hcall]
      have hwalk := Walks.cons (ihwithin log) hlogged (ihmore _)
      simpa [visitedAll, visited, Visit.call] using hwalk

/-- The visits have the shape of the forest. -/
theorem sourceAll_eq (h : Walks f above index ns s vs s') : sourceAll vs = ns := by
  induction h with
  | nil => rfl
  | cons _ _ _ ihwithin ihmore =>
      rw [sourceAll, source, ihwithin, ihmore]
      rfl

/-- Each call is one of the step, and is given what was made of the contents. -/
theorem calls (h : Walks f above index ns s vs s') : ∀ v ∈ visitedAll vs,
    v.call.given.items = outcome v.within ∧
      ∃ t, ((f v.call.given v.call.index v.call.pointer).run t).1 = v.call.made := by
  induction h with
  | nil => exact fun _ hv => absurd hv List.not_mem_nil
  | @cons above index c items rest s s₁ s₂ s₃ within more made _ hcall _ ihwithin ihmore =>
      intro v hv
      rw [visitedAll, visited, List.append_assoc, List.mem_append, List.mem_append,
        List.mem_singleton] at hv
      rcases hv with hv | rfl | hv
      · exact ihwithin v hv
      · exact ⟨rfl, s₁, congrArg Prod.fst hcall⟩
      · exact ihmore v hv

/-- Nodes contain what was made of the contents of the one that they are made of. -/
theorem items (hf : f.Keeps) (h : Walks f above index ns s vs s') :
    ∀ v ∈ visitedAll vs, ∀ n ∈ v.made, n.items = outcome v.within := by
  intro v hv n hn
  obtain ⟨hgiven, t, hmade⟩ := h.calls v hv
  rw [← hgiven]
  refine hf v.call.given v.call.index v.call.pointer t n ?_
  rw [hmade]
  exact hn

/-- A node that is kept below nodes that are kept stands where its position says, and stores the
position. -/
theorem keeps_position (hf : f.Keeps) {read : Control → String} (hstores : f.Stores read)
    (h : Walks f above index ns s vs s') : ∀ {i : Nat} {path : List Nat} {w : Visit},
      Kept vs (i :: path) w → ∃ kept, w.call.made = .one kept ∧
        at? (i :: path) (outcome vs) = some kept ∧
        read kept.control = Pointer.position above ((index + i) :: path) := by
  induction h with
  | nil => intro i path w hkept; cases hkept
  | @cons above index c items rest s s₁ s₂ s₃ within more made hwithin hcall _ ihwithin ihmore =>
      intro i path w hkept
      cases hkept with
      | @here _ _ kept hmade =>
          obtain rfl : made = .one kept := hmade
          refine ⟨kept, rfl, rfl, ?_⟩
          rw [Nat.add_zero, Pointer.position_singleton]
          exact hstores _ _ _ s₁ kept (congrArg Prod.fst hcall)
      | @within _ _ _ kept path hmade hbelow =>
          obtain rfl : made = .one kept := hmade
          obtain ⟨next, path, rfl⟩ := hbelow.path_eq_cons
          obtain ⟨n, hn, hat, hread⟩ := ihwithin hbelow
          have hitems : kept.items = outcome within := by
            refine hf (.mk c (outcome within)) index (Pointer.item above index) s₁ kept ?_
            rw [hcall]
            exact List.mem_singleton_self kept
          refine ⟨n, hn, ?_, ?_⟩
          · show at? (next :: path) kept.items = some n
            rw [hitems]
            exact hat
          · rw [Nat.add_zero, Pointer.position_cons_cons, hread, Nat.zero_add]
      | @after _ _ _ j path hkept =>
          obtain ⟨n, hn, hat, hread⟩ := ihmore hkept
          refine ⟨n, hn, ?_, ?_⟩
          · rw [outcome_cons, at?_append]
            exact hat
          · rw [hread, Nat.add_assoc]
            rfl

end Walks

/-- Every node of a result is made in a visit. -/
theorem exists_visit : ∀ (path : List Nat) {vs : List Visit} {n : Node},
    (∀ v ∈ visitedAll vs, ∀ n ∈ v.made, n.items = outcome v.within) →
      at? path (outcome vs) = some n → ∃ w ∈ visitedAll vs, n ∈ w.made
  | [], _, _, _, hat => by cases hat
  | [index], vs, n, _, hat => by
      obtain ⟨v, hv, hn⟩ := List.mem_flatMap.mp (List.mem_of_getElem? hat)
      exact ⟨v, mem_visitedAll.mpr ⟨v, hv, .inl rfl⟩, hn⟩
  | index :: next :: path, vs, n, hitems, hat => by
      obtain ⟨m, hm, hat⟩ := Option.bind_eq_some_iff.mp hat
      obtain ⟨v, hv, hmade⟩ := List.mem_flatMap.mp (List.mem_of_getElem? hm)
      rw [hitems v (mem_visitedAll.mpr ⟨v, hv, .inl rfl⟩) m hmade] at hat
      obtain ⟨w, hw, hn⟩ := exists_visit (next :: path) (forall_visited_within hitems hv) hat
      exact ⟨w, mem_visitedAll.mpr ⟨v, hv, .inr hw⟩, hn⟩

/-- **Positions in walks.**  A step that keeps what nodes contain is called once for every node of
the forest, contents before their node and siblings from left to right.  If it stores the pointer
that it is given, a node that is kept as one, below nodes that are kept as one, stores its position
in the result, whatever is made of the other nodes.  And a row of siblings in the result has as many
nodes as were made of the siblings in the forest together. -/
theorem walk_positions (f : Step (StateM σ)) (hf : f.Keeps) (above : String) (ns : List Node)
    (s : σ) : ∃ visits s',
      (mapForest f above 0 ns).run s = (outcome visits, s') ∧
        (mapForest f.logged above 0 ns).run ([], s) =
          (outcome visits, (visitedAll visits).map call, s') ∧
        sourceAll visits = ns ∧
        (visitedAll visits).map (·.call.given.control) = Node.postorderAll ns ∧
        (∀ read, f.Stores read → ∀ path w, Kept visits path w → ∃ kept,
          w.call.made = .one kept ∧ at? path (outcome visits) = some kept ∧
            read kept.control = Pointer.position above path) ∧
        (outcome visits).length = (visits.map fun v => v.made.length).sum ∧
        ∀ path n, at? path (outcome visits) = some n → ∃ w ∈ visitedAll visits, n ∈ w.made ∧
          n.items.length = (w.within.map fun v => v.made.length).sum := by
  obtain ⟨visits, s', h⟩ := exists_walk f ns above 0 s
  refine ⟨visits, s', h.run, (h.logged []).run, h.sourceAll_eq, ?_, ?_, length_outcome visits, ?_⟩
  · rw [controls_visitedAll, h.sourceAll_eq]
  · intro read hstores path w hkept
    obtain ⟨index, path, rfl⟩ := hkept.path_eq_cons
    obtain ⟨kept, hmade, hat, hread⟩ := h.keeps_position hf hstores hkept
    rw [Nat.zero_add] at hread
    exact ⟨kept, hmade, hat, hread⟩
  · intro path n hat
    obtain ⟨w, hw, hn⟩ := exists_visit path (h.items hf) hat
    refine ⟨w, hw, hn, ?_⟩
    rw [h.items hf w hw n hn, length_outcome]

/-- A walk that counts its calls, drops a node and makes two of another one, at the top and in a
section. -/
theorem walk_positions_sections :
    let f : Step (StateM Nat) := fun n _ pointer => do
      set ((← get) + 1)
      let kept := n.modify fun c => { c with layoutPointer := pointer }
      return if n.control.type = "gone" then .drop
        else if n.control.type = "twice" then .many [kept, kept] else .one kept
    let forest : List Node := [.mk { type := "twice" } [], .mk { type := "gone" } [],
      .mk { type := "section" } [.mk { type := "gone" } [], .mk { type := "text" } []]]
    f.Keeps ∧ f.Stores Control.layoutPointer ∧ ∃ visits,
      (mapForest f "/tabs" 0 forest).run 0 = (outcome visits, 5) ∧
        (visitedAll visits).map (·.call.given.control.type) =
          ["twice", "gone", "gone", "text", "section"] ∧
        (controlsAll (outcome visits)).map Control.layoutPointer =
          ["/tabs/0", "/tabs/0", "/tabs/2", "/tabs/2/items/0"] ∧
        ∀ path w, Kept visits path w → ∃ kept, at? path (outcome visits) = some kept ∧
          kept.control.layoutPointer = Pointer.position "/tabs" path := by
  intro f forest
  have hcall (c : Control) (items : List Node) (index : Nat) (pointer : String) (t : Nat) :
      ((f (.mk c items) index pointer).run t).1 =
        let kept := Node.mk { c with layoutPointer := pointer } items
        if c.type = "gone" then .drop
        else if c.type = "twice" then .many [kept, kept] else .one kept := rfl
  have hkeeps : f.Keeps := by
    rintro ⟨c, items⟩ index pointer t n hn
    rw [hcall c items index pointer t] at hn
    dsimp only at hn
    split_ifs at hn with hgone htwice
    · cases hn
    · rw [Mapped.toList, List.mem_pair, or_self] at hn
      rw [hn]
      rfl
    · rw [List.eq_of_mem_singleton hn]
      rfl
  have hstores : f.Stores Control.layoutPointer := by
    rintro ⟨c, items⟩ index pointer t kept hkept
    rw [hcall c items index pointer t] at hkept
    dsimp only at hkept
    split_ifs at hkept with hgone htwice
    rw [← Mapped.one.inj hkept]
    rfl
  obtain ⟨visits, s', hrun, -, -, horder, hpositions, -⟩ := walk_positions f hkeeps "/tabs" forest 0
  have hmade : (mapForest f "/tabs" 0 forest).run 0 =
      ([.mk { type := "twice", layoutPointer := "/tabs/0" } [],
        .mk { type := "twice", layoutPointer := "/tabs/0" } [],
        .mk { type := "section", layoutPointer := "/tabs/2" }
          [.mk { type := "text", layoutPointer := "/tabs/2/items/0" } []]], 5) := rfl
  obtain ⟨hnodes, rfl⟩ := Prod.mk.inj (hmade.symm.trans hrun)
  refine ⟨hkeeps, hstores, visits, hrun, ?_, ?_, ?_⟩
  · have htypes := congrArg (List.map Control.type) horder
    rw [List.map_map] at htypes
    exact htypes
  · rw [← hnodes]
    rfl
  · intro path w hkept
    obtain ⟨kept, -, hat, hread⟩ := hpositions Control.layoutPointer hstores path w hkept
    exact ⟨kept, hat, hread⟩

end Node

end SchemaForm
