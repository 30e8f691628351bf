/-
Regrouping the loose fields of an array.

The children of an array entry that are bound within the items are gathered in one section.  They
are told by the shallowest pointer of the items (`Grouping.key`), and what is at that pointer or
below it is moved to the item (`Grouping.item`).  For a plain array the two are one.  The items of
an array that repeats a schema around it may be below their own shallowest pointer, and then a
control that is bound at the item already is moved as well: it ends up as much deeper as the item
is below its shallowest pointer (`Grouping.sunk`, `Grouping.moved_eq_iff`).
-/
import SchemaForm.Proofs.Layout.Built
import SchemaForm.Proofs.Reference.NormalForm

namespace SchemaForm

namespace Pointer

variable {rules : FoldRules} {arrays : ArrayTable} {above pointer : String}

/-- The pointer is the one above, or goes on with a slash after it. -/
def AtOrBelow (above pointer : String) : Prop :=
  pointer = above ∨ ∃ rest, pointer = above ++ "/" ++ rest

theorem AtOrBelow.covers (h : AtOrBelow above pointer) : covers above pointer = true := by
  rcases h with rfl | ⟨rest, rfl⟩
  · exact covers_refl pointer
  · exact covers_slash above rest

theorem length_after (above pointer : String) :
    (after above pointer).length = pointer.length - above.length := by
  rw [after, ← String.length_toList, String.toList_ofList, List.length_drop, String.length_toList]

/-- What follows a pointer that is no longer than the beginning. -/
theorem after_append {above front : String} (h : above.length ≤ front.length) (rest : String) :
    after above (front ++ rest) = after above front ++ rest := by
  rw [← String.toList_inj, String.toList_append]
  simp only [after, String.toList_ofList, String.toList_append]
  exact List.drop_append_of_le_length (by rwa [String.length_toList])

theorem AtOrBelow.append_after (h : AtOrBelow above pointer) :
    above ++ after above pointer = pointer := by
  obtain ⟨rest, rfl⟩ : ∃ rest, pointer = above ++ rest := by
    rcases h with rfl | ⟨rest, rfl⟩
    · exact ⟨"", String.append_empty.symm⟩
    · exact ⟨"/" ++ rest, String.append_assoc⟩
  have hself : after above above = "" := by
    rw [after, ← String.length_toList, List.drop_length, String.ofList_nil]
  rw [after_append (Nat.le_refl _), hself, String.empty_append]

theorem length_le_of_covers {segments : List String} {pointer : String}
    (h : covers (ofSegments segments) pointer = true) :
    (ofSegments segments).length ≤ pointer.length := by
  obtain ⟨rest, hrest, -⟩ := covers_iff.mp h
  have hunmarked : (unmarked pointer.toList).length ≤ pointer.toList.length := by
    unfold unmarked
    split
    · next hmark =>
        rw [hmark]
        exact Nat.le_succ _
    · exact Nat.le_refl _
  rw [hrest, unmarked_ofSegments, List.length_append, String.length_toList,
    String.length_toList] at hunmarked
  omega

/-- A generic pointer that shortening changes is written, and becomes shorter. -/
theorem written_of_shorten_ne (hrules : ∀ rule ∈ rules, RuleWritten rule)
    (hgeneric : toGeneric arrays pointer = pointer) (hne : shorten rules arrays pointer ≠ pointer) :
    Written pointer ∧ (shorten rules arrays pointer).length < pointer.length := by
  constructor
  · rcases toGeneric_cases arrays pointer with hwritten | ⟨hnone, -⟩
    · rwa [hgeneric] at hwritten
    · exact absurd (shorten_of_segments?_eq_none hrules hnone) hne
  · rw [shorten, hgeneric] at hne ⊢
    exact (foldAll_cases rules arrays pointer).resolve_left hne

/-- A generic pointer is its own shallowest equivalent if and only if no rule that moves pointers
up covers it. -/
theorem shorten_eq_iff (hrules : ∀ rule ∈ rules, RuleWritten rule)
    (hgeneric : toGeneric arrays pointer = pointer) :
    shorten rules arrays pointer = pointer ↔
      ∀ rule ∈ rules, isFold rule = true → covers rule.1 pointer = false := by
  constructor
  · intro hsame rule hm hfold
    rcases toGeneric_cases arrays pointer with hwritten | ⟨hnone, -⟩
    · have hclear := (foldAll_reduces arrays (fun rule hm _ => hrules rule hm) hwritten).clear
      rw [← shorten, hsame] at hclear
      exact hclear rule hm hfold
    · refine Bool.not_eq_true _ ▸ fun hcovers => ?_
      exact segments?_of_covered (hrules rule hm) hfold hcovers hnone
  · exact fun hclear => NormalForm.shorten ⟨hgeneric, hclear⟩

end Pointer

namespace Compose

open Build Pointer

variable {ctx : Setup} {document : Json} {array c : Control} {given p : String} {g : Grouping}
  {child : Node} {children : List Node}

/-! ## One control -/

namespace Grouping

/-- The item is below its own shallowest pointer. -/
def IsDeeper (g : Grouping) : Prop := g.key ≠ g.item ∧ covers g.key g.item = true

/-- The shallowest pointer of the items is the item, or is shorter. -/
def IsShortened (g : Grouping) : Prop :=
  g.key ≠ g.item → Written g.item ∧ g.key.length < g.item.length

/-- The shallowest pointer covers what is at the item or below it just if it covers the item. -/
theorem IsShortened.covers_eq (hg : g.IsShortened) (hne : g.key ≠ g.item) (h : AtOrBelow g.item p) :
    covers g.key p = covers g.key g.item := by
  rw [Bool.eq_iff_iff]
  constructor
  · intro hkey
    refine (covers_total hkey h.covers).resolve_right fun hbelow => ?_
    obtain ⟨⟨segments, hsegments⟩, hshorter⟩ := hg hne
    rw [hsegments] at hbelow hshorter
    exact absurd (length_le_of_covers hbelow) (Nat.not_le.mpr hshorter)
  · exact fun hkey => covers_trans hkey h.covers

theorem dataPointer_moved (g : Grouping) (hc : c.dataPointer = some p) :
    (g.moved c).dataPointer =
      some (if covers g.key p = true then g.item ++ after g.key p else p) := by
  rw [moved, hc]
  rfl

/-- Where a control that is bound at the item or below it is moved if the item is deeper. -/
def sunk (g : Grouping) (pointer : String) : String :=
  g.item ++ after g.key g.item ++ after g.item pointer

theorem moved_of_deeper (hg : g.IsShortened) (hdeeper : g.IsDeeper) (hc : c.dataPointer = some p)
    (h : AtOrBelow g.item p) : (g.moved c).dataPointer = some (g.sunk p) := by
  obtain ⟨hne, hcovers⟩ := hdeeper
  have hafter : after g.key p = after g.key g.item ++ after g.item p :=
    calc after g.key p = after g.key (g.item ++ after g.item p) := by rw [h.append_after]
      _ = after g.key g.item ++ after g.item p := after_append (hg hne).2.le _
  rw [dataPointer_moved g hc, hg.covers_eq hne h, if_pos hcovers, hafter, ← String.append_assoc,
    sunk]

theorem moved_of_not_deeper (hg : g.IsShortened) (hplain : ¬g.IsDeeper)
    (hc : c.dataPointer = some p) (h : AtOrBelow g.item p) :
    (g.moved c).dataPointer = some p := by
  rw [dataPointer_moved g hc]
  by_cases hsame : g.key = g.item
  · rw [hsame, if_pos h.covers, h.append_after]
  · rw [hg.covers_eq hsame h, if_neg fun hcovers => hplain ⟨hsame, hcovers⟩]

/-- What is sunk is elsewhere: its pointer is longer. -/
theorem sunk_ne (hg : g.IsShortened) (hdeeper : g.IsDeeper) (h : AtOrBelow g.item p) :
    g.sunk p ≠ p := by
  intro hsame
  have hshorter := (hg hdeeper.1).2
  have hp := congrArg String.length h.append_after
  have hsunk := congrArg String.length hsame
  rw [String.length_append] at hp
  rw [sunk, String.length_append, String.length_append, length_after g.key] at hsunk
  omega

/-- A control that is bound at the item or below it stays bound there unless the item is deeper. -/
theorem moved_eq_iff (hg : g.IsShortened) (hc : c.dataPointer = some p)
    (h : AtOrBelow g.item p) : (g.moved c).dataPointer = some p ↔ ¬g.IsDeeper := by
  constructor
  · intro hstays hdeeper
    rw [moved_of_deeper hg hdeeper hc h] at hstays
    exact sunk_ne hg hdeeper h (Option.some.inj hstays)
  · exact fun hplain => moved_of_not_deeper hg hplain hc h

end Grouping

/-- The item of an array that is bound to a generic pointer is generic. -/
theorem toGeneric_groupingFor (harray : array.dataPointer = some (ctx.generic given)) :
    toGeneric ctx.resolved.arrays (groupingFor ctx array).item = (groupingFor ctx array).item := by
  have hitem : (groupingFor ctx array).item = anyItem (ctx.generic given) := by
    rw [groupingFor, harray]
    rfl
  rw [hitem]
  exact toGeneric_anyItem _ _

theorem groupingFor_isShortened (hdocument : Resolved.of? document = some ctx.resolved)
    (harray : array.dataPointer = some (ctx.generic given)) :
    (groupingFor ctx array).IsShortened :=
  written_of_shorten_ne (Resolved.dataFolds_written hdocument) (toGeneric_groupingFor harray)

/-! ## Children -/

namespace Grouping

/-- A control that is bound at the item or below it is bound there still. -/
def Stays (g : Grouping) (c c' : Control) : Prop :=
  ∀ p, c.dataPointer = some p → AtOrBelow g.item p → c'.dataPointer = some p

/-- A control that is bound at the item or below it is bound deeper, by as much as the item is below
its shallowest pointer. -/
def Sinks (g : Grouping) (c c' : Control) : Prop :=
  ∀ p, c.dataPointer = some p → AtOrBelow g.item p → c'.dataPointer = some (g.sunk p)

/-- A child of the array as regrouping leaves it, in the section or by itself. -/
def carried (g : Grouping) (removable : Bool) (child : Node) : Node :=
  if g.holds child then child.map g.moved else child.modify (keptItem removable)

/-- The child is gathered, and a control in it is bound at the item already, or below it. -/
def IsBased (g : Grouping) (child : Node) : Prop :=
  g.holds child = true ∧
    ∃ c ∈ child.controls, ∃ p, c.dataPointer = some p ∧ AtOrBelow g.item p

theorem controls_carried (removable : Bool) (hheld : g.holds child = true) :
    (g.carried removable child).controls = child.controls.map g.moved := by
  rw [carried, if_pos hheld, Node.controls_map]

theorem stays_carried_iff (hg : g.IsShortened) (removable : Bool) (child : Node) :
    List.Forall₂ g.Stays child.controls (g.carried removable child).controls ↔
      ¬(g.IsDeeper ∧ g.IsBased child) := by
  by_cases hheld : g.holds child = true
  · rw [controls_carried removable hheld, List.forall₂_map_right_iff, List.forall₂_same]
    constructor
    · rintro hstays ⟨hdeeper, -, c, hmem, p, hc, hp⟩
      exact (moved_eq_iff hg hc hp).mp (hstays c hmem p hc hp) hdeeper
    · intro hplain c hmem p hc hp
      refine (moved_eq_iff hg hc hp).mpr fun hdeeper => ?_
      exact hplain ⟨hdeeper, hheld, c, hmem, p, hc, hp⟩
  · refine iff_of_true ?_ fun hbased => hheld hbased.2.1
    rw [carried, if_neg hheld]
    cases child with
    | mk c items => exact .cons (fun _ hc _ => hc) (List.forall₂_same.mpr fun _ _ _ hc _ => hc)

theorem sinks_carried (hg : g.IsShortened) (removable : Bool) (hdeeper : g.IsDeeper)
    (hheld : g.holds child = true) :
    List.Forall₂ g.Sinks child.controls (g.carried removable child).controls := by
  rw [controls_carried removable hheld, List.forall₂_map_right_iff, List.forall₂_same]
  intro c hmem p hc hp
  exact moved_of_deeper hg hdeeper hc hp

theorem carried_gathered (g : Grouping) (removable : Bool) (children : List Node) :
    (children.filter g.holds).map (g.carried removable) =
      Node.mapAll g.moved (children.filter g.holds) := by
  rw [Node.mapAll_eq_map]
  refine List.map_congr_left fun child hmem => ?_
  rw [carried, if_pos (List.mem_filter.mp hmem).2]

theorem carried_kept (g : Grouping) (removable : Bool) (children : List Node) :
    (children.filter (!g.holds ·)).map (g.carried removable) =
      (children.filter (!g.holds ·)).map (·.modify (keptItem removable)) := by
  refine List.map_congr_left fun child hmem => ?_
  have hfree := (List.mem_filter.mp hmem).2
  rw [Bool.not_eq_true'] at hfree
  rw [carried, hfree, if_neg Bool.false_ne_true]

/-- The children that stay by themselves, and after them a section of the others if there are
any. -/
def Makes (g : Grouping) (removable : Bool) (children made : List Node) : Prop :=
  ∃ more, made = (children.filter (!g.holds ·)).map (g.carried removable) ++ more ∧
    ((children.filter g.holds = [] ∧ more = []) ∨
      ∃ group : Node, group.control.dataPointer = some g.item ∧
        group.items = (children.filter g.holds).map (g.carried removable) ∧ more = [group])

end Grouping

theorem items_gathered (removable : Bool) (kind : ItemKind) (id : Nat) (children : List Node) :
    (gathered ctx g removable kind id (children.filter g.holds)).items =
      (children.filter g.holds).map (g.carried removable) := by
  rw [gathered, Node.items, Grouping.carried_gathered]

theorem runs_asItems_makes {bounds : ArrayBounds} {made : List Node} {s s' : Progress}
    (hchildren : 2 ≤ children.length) (h : (asItems ctx g array bounds children).Runs s made s') :
    g.Makes (array.flag "removable" true) children made := by
  have hmany : ∀ only, children ≠ [only] := by
    rintro only rfl
    exact absurd hchildren (Nat.not_succ_le_self 1)
  rcases runs_asItems h with ⟨only, -, hsingle, -⟩ | hregroup
  · exact absurd hsingle (hmany only)
  · obtain ⟨kept, rfl, hmade⟩ := runs_regroup hregroup
    rw [← Grouping.carried_kept] at hmade
    rcases hmade with ⟨hnone, rfl, -⟩ | ⟨kind, rfl, -⟩
    · exact ⟨[], (List.append_nil _).symm, .inl ⟨hnone, rfl⟩⟩
    · exact ⟨_, rfl, .inr ⟨_, rfl, items_gathered _ _ _ _, rfl⟩⟩

/-- **Bindings of regrouped fields.**  For an array entry with two or more children, bound in the
form of some document, regrouping returns, and makes a section of the children that are bound within
the items, after the others.  Every control that was bound at the item or below it is bound there
still, in every child, if and only if the item is not below its own shallowest pointer or no child
that is gathered holds such a control.  Otherwise all controls of this kind that are gathered come
to be bound deeper, by as much as the item is below its shallowest pointer.  And the item is its own
shallowest pointer if and only if no rule of the recursion in the document covers it. -/
theorem regrouped_bindings_iff (hdocument : Resolved.of? document = some ctx.resolved)
    (harray : array.dataPointer = some (ctx.generic given)) (bounds : ArrayBounds)
    (hchildren : 2 ≤ children.length) (s : Progress) :
    let g := groupingFor ctx array
    let removable := array.flag "removable" true
    (∃ made s', (asItems ctx g array bounds children).Runs s made s' ∧
        g.Makes removable children made) ∧
      ((∀ child ∈ children,
          List.Forall₂ g.Stays child.controls (g.carried removable child).controls) ↔
        ¬(g.IsDeeper ∧ ∃ child ∈ children, g.IsBased child)) ∧
      (g.IsDeeper → ∀ child ∈ children, g.holds child = true →
        List.Forall₂ g.Sinks child.controls (g.carried removable child).controls) ∧
      (g.key = g.item ↔ ∀ rule ∈ ctx.resolved.dataFolds, isFold rule = true →
        covers rule.1 g.item = false) := by
  intro g removable
  have hg : g.IsShortened := groupingFor_isShortened hdocument harray
  refine ⟨?_, ?_, fun hdeeper child _ => Grouping.sinks_carried hg removable hdeeper,
    shorten_eq_iff (Resolved.dataFolds_written hdocument) (toGeneric_groupingFor harray)⟩
  · obtain ⟨made, s', hrun⟩ := (asItems_returns children).ends s
    exact ⟨made, s', hrun, runs_asItems_makes hchildren hrun⟩
  · constructor
    · rintro hstays ⟨hdeeper, child, hmem, hbased⟩
      exact (Grouping.stays_carried_iff hg removable child).mp (hstays child hmem) ⟨hdeeper, hbased⟩
    · intro hplain child hmem
      refine (Grouping.stays_carried_iff hg removable child).mpr fun hbased => ?_
      exact hplain ⟨hbased.1, child, hmem, hbased.2⟩

/-- Two fields of the friends in a list. -/
theorem regrouped_bindings_iff_friends :
    let friend : Json := .obj [("type", .str "object"), ("properties", .obj
      [("name", .obj [("type", .str "string")]), ("age", .obj [("type", .str "number")])])]
    let document : Json := .obj [("properties", .obj
      [("friends", .obj [("type", .str "array"), ("items", friend)])])]
    let array : Control := { dataPointer := some "/friends" }
    let children : List Node := [.mk { dataPointer := some "/friends/-/name" } [],
      .mk { dataPointer := some "/friends/-/age" } []]
    ∃ ctx : Setup, Resolved.of? document = some ctx.resolved ∧
      array.dataPointer = some (ctx.generic "/friends") ∧ 2 ≤ children.length ∧
      (groupingFor ctx array).key = "/friends/-" ∧
      (∃ made s',
        (asItems ctx (groupingFor ctx array) array ⟨1000, 0, 0, 1⟩ children).Runs {} made s' ∧
        (groupingFor ctx array).Makes true children made) ∧
      ∀ child ∈ children, List.Forall₂ (groupingFor ctx array).Stays child.controls
        ((groupingFor ctx array).carried true child).controls := by
  intro friend document array children
  obtain ⟨r, hr, hfolds, harrays⟩ : ∃ r, Resolved.of? document = some r ∧
      r.dataFolds = [] ∧ r.arrays = [("/friends", 0)] := ⟨_, rfl, rfl, rfl⟩
  let ctx : Setup := { (default : Setup) with resolved := r }
  have hbound : array.dataPointer = some (ctx.generic "/friends") := by
    show some "/friends" = some (toGeneric r.arrays "/friends")
    rw [harrays]
    decide
  have hdocument : Resolved.of? document = some ctx.resolved := hr
  have hlength : 2 ≤ children.length := by decide
  obtain ⟨hmakes, hstays, -, hkey⟩ :=
    regrouped_bindings_iff hdocument hbound ⟨1000, 0, 0, 1⟩ hlength {}
  have hsame : (groupingFor ctx array).key = (groupingFor ctx array).item := by
    refine hkey.mpr ?_
    show ∀ rule ∈ r.dataFolds, _
    rw [hfolds]
    exact fun _ hm => absurd hm List.not_mem_nil
  exact ⟨ctx, hdocument, hbound, hlength, hsame, hmakes,
    hstays.mpr fun hbased => hbased.1.1 hsame⟩

/-- Two fields of the children in a document that is a tree, bound at the children. -/
theorem not_regrouped_bindings : ¬∀ (ctx : Setup) (document : Json) (array : Control)
    (given : String) (bounds : ArrayBounds) (children made : List Node) (s s' : Progress),
    Resolved.of? document = some ctx.resolved → array.dataPointer = some (ctx.generic given) →
      2 ≤ children.length →
      (asItems ctx (groupingFor ctx array) array bounds children).Runs s made s' →
      ∀ child ∈ children, ∀ c ∈ child.controls, ∀ p, c.dataPointer = some p →
        AtOrBelow (groupingFor ctx array).item p →
          ∃ c' ∈ Node.controlsAll made, c'.id = c.id ∧ c'.dataPointer = some p := by
  intro h
  let document : Json := .obj [("type", .str "object"), ("properties", .obj
    [("name", .obj [("type", .str "string")]), ("age", .obj [("type", .str "number")]),
      ("children", .obj [("type", .str "array"), ("items", .obj [("$ref", .str "#")])])])]
  let array : Control := { dataPointer := some "/children" }
  let name : Control := { id := some 1, dataPointer := some "/children/-/name" }
  let age : Control := { id := some 2, dataPointer := some "/children/-/age" }
  have hresolved : ((Resolved.of? document).any fun r =>
      r.dataFolds == [("/children/-", "")] && r.arrays == [("/children", 0)]) = true := by
    decide +kernel
  obtain ⟨r, hr, htables⟩ := (Option.any_eq_true _ _).mp hresolved
  rw [Bool.and_eq_true, beq_iff_eq, beq_iff_eq] at htables
  obtain ⟨hfolds, harrays⟩ := htables
  let ctx : Setup := { (default : Setup) with resolved := r }
  have hbound : array.dataPointer = some (ctx.generic "/children") := by
    show some "/children" = some (toGeneric r.arrays "/children")
    rw [harrays]
    decide
  have hkey : ctx.dataKey "/children/-" = "" := by
    show shorten r.dataFolds r.arrays "/children/-" = ""
    rw [hfolds, harrays]
    decide +kernel
  let g : Grouping := { key := "", item := "/children/-", array := "", layout := "/items/-" }
  have hg : groupingFor ctx array = g := by
    show { g with key := ctx.dataKey "/children/-" } = g
    rw [hkey]
  let made := [gathered ctx g true .list 1 [.mk name [], .mk age []]]
  have hrun : (asItems ctx (groupingFor ctx array) array ⟨1000, 0, 0, 1⟩
      [.mk name [], .mk age []]).Runs {} made { lastId := 1 } := by
    rw [hg]
    rfl
  have hpointers : (Node.controlsAll made).map Control.dataPointer =
      [some "/children/-", some "/children/-/children/-/name",
        some "/children/-/children/-/age"] := rfl
  have hname : AtOrBelow (groupingFor ctx array).item "/children/-/name" :=
    .inr ⟨"name", by rw [hg]; rfl⟩
  obtain ⟨c', hmem, -, hdata⟩ := h ctx document array "/children" ⟨1000, 0, 0, 1⟩ _ made {} _ hr
    hbound (by decide) hrun (.mk name []) List.mem_cons_self name List.mem_cons_self _ rfl hname
  have hlisted := List.mem_map_of_mem (f := Control.dataPointer) hmem
  rw [hpointers, hdata] at hlisted
  exact absurd hlisted (by decide)

end Compose

end SchemaForm
