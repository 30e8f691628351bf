/-
Every node of a form has an id of its own.

    compile … = ok form →
      every node of the layout and every node placed later has an id, no two have
      the same one, and no node of a stored template has one

`calls` is any sequence of placings after the form is compiled, under any names
and at any sites: a name without a template places nothing.  The statement is
about all ids at once, `Node.ids` of the layout and of everything placed, so that
an id of a template copied twice, or one kept from a template's own nodes, would
show.

The layout draws its ids from the counter (`Proofs.Layout.Numbering`); here the
steps of composing a layout do, the description's entries from their children
upwards.
-/
import SchemaForm.Proofs.Layout.Composed
import SchemaForm.Proofs.Layout.Numbering

namespace SchemaForm

open Build

/-- A node with the id of another one, around what was drawn from its contents. -/
theorem Draws.around {p q : Progress} {c c' : Control} {given made : List Node}
    (hid : c'.id = c.id) (h : Draws p q given made) :
    Draws p q [.mk c given] [.mk c' made] := by
  refine ⟨h.advances, ?_⟩
  rw [Node.ids_mk, Node.ids_mk, hid, List.cons_append]
  exact (List.subperm_cons _).mpr h.ids

namespace Generate

variable {ctx : Setup} {p q : Progress}

theorem expandBound_draws {schemaPointer : String} {c : Control} {n : Node}
    (h : (expandBound ctx schemaPointer c).Runs p n q) : Draws p q [.mk c []] [n] := by
  rcases runs_expandBound h with ⟨rfl, rfl⟩ | ⟨schema, -, -, -, items, hp, rfl⟩ |
      ⟨schema, -, -, ha⟩ | ⟨-, -, -, made, hm, rfl⟩
  · exact .refl _ _
  · exact .around rfl ((buildProperties_draws numbers_run hp).2 rfl)
  · obtain ⟨items, rfl, -, hd⟩ := buildArray_draws numbers_run ha
    exact .around rfl (hd rfl)
  · obtain ⟨ha, hid⟩ := buildReference_advances numbers_run hm
    exact .around hid (.none ha [])

end Generate

namespace Compose

variable {ctx : Setup} {p q : Progress}

/-! ## Items of arrays -/

theorem regroup_draws {g : Grouping} {removable : Bool} {bounds : ArrayBounds}
    {children made : List Node}
    (h : (regroup ctx g removable bounds children).Runs p made q) : Draws p q children made := by
  obtain ⟨kept, rfl, h⟩ := runs_regroup h
  have hkept : Node.ids ((children.filter (!g.holds ·)).map (·.modify (keptItem removable))) =
      Node.ids (children.filter (!g.holds ·)) := by
    rw [Node.ids_map_modify]
    exact fun _ => rfl
  have hsplit : (Node.ids (children.filter (!g.holds ·)) ++
      Node.ids (children.filter g.holds)).Perm (Node.ids children) := by
    rw [← Node.ids_append]
    exact Node.ids_perm (List.perm_append_comm.trans (List.filter_append_perm _ _))
  rcases h with ⟨hf, rfl, rfl⟩ | ⟨kind, rfl, rfl⟩
  · refine .of_advances (.refl _) ?_
    rw [hf, Node.ids_nil, List.append_nil] at hsplit
    rw [hkept]
    exact hsplit.subperm
  · refine ⟨⟨Nat.le_succ _, id⟩, ?_⟩
    have hfields : Node.ids (Node.mapAll g.moved (children.filter g.holds)) =
        Node.ids (children.filter g.holds) := by
      rw [Node.ids_mapAll]
      exact fun _ => rfl
    rw [Node.ids_append, hkept, gathered, Node.ids_mk, hfields, issued_succ]
    refine List.Perm.subperm ?_
    exact List.perm_middle.trans ((hsplit.cons _).trans (List.perm_append_singleton _ _).symm)

theorem asItems_draws {g : Grouping} {array : Control} {bounds : ArrayBounds}
    {children made : List Node} (h : (asItems ctx g array bounds children).Runs p made q) :
    Draws p q children made := by
  rcases runs_asItems h with ⟨only, orderable, rfl, rfl, rfl⟩ | h
  · refine .of_advances (.refl _) ?_
    rw [Node.ids_modify]
    exact fun _ => rfl
  · exact regroup_draws h

theorem storeOffered_advances {g : Grouping} {array : Control} {items : List Node} {name : String}
    {addable : Bool} {u : Unit}
    (h : (storeOffered name addable (offered? ctx g array items)).Runs p u q) : p.Advances q := by
  rcases runs_storeOffered h with ⟨rfl, -⟩ | ⟨-, t, ht, rfl⟩
  · exact .refl _
  · obtain ⟨last, -, rfl⟩ := Option.map_eq_some_iff.mp ht
    exact ⟨Nat.le_refl _, fun hp => hp.store name _ _⟩

theorem fillFrom_draws {g : Grouping} {array : Control} {bounds : ArrayBounds} {existing : Nat}
    {dataPointer name : String} {t : Template} {items made : List Node}
    (h : (fillFrom ctx g array bounds existing dataPointer name t items).Runs p made q) :
    Draws p q items made := by
  obtain ⟨count, more, s, hc, h⟩ := runs_fillFrom h
  have hm : Draws p s items (items ++ more) := by
    have hf := (copies_draws hc).frame items
    rwa [List.append_nil] at hf
  rcases h with ⟨rfl, rfl⟩ | ⟨-, label, rfl, rfl⟩
  · exact hm
  · refine hm.trans ⟨⟨Nat.le_succ _, id⟩, ?_⟩
    rw [Node.ids_append, issued_succ]
    exact List.Subperm.refl _

theorem expandArray_draws {bounds : ArrayBounds} {existing : Nat} {n made : Node}
    (h : (expandArray ctx bounds existing n).Runs p made q) : Draws p q [n] [made] := by
  obtain ⟨items, s, filled, hi, hf, rfl⟩ := runs_expandArray h
  have hn : ∀ m : DataMap, p.Advances { p with dataMap := m } := fun _ => .of_eq rfl rfl
  have hitems : Draws p s n.items items :=
    (Draws.of_advances (hn _) (List.Subperm.refl _)).trans (asItems_draws hi)
  obtain ⟨s', u, hs, hf⟩ := runs_fillArray hf
  have hfilled : Draws s q items filled := by
    have hstored : Draws s s' items items :=
      .of_advances (storeOffered_advances hs) (List.Subperm.refl _)
    rcases hf with ⟨rfl, rfl⟩ | ⟨t, -, hf⟩
    · exact hstored
    · exact hstored.trans (fillFrom_draws hf)
  cases n with
  | mk c children => exact .around rfl (hitems.trans hfilled)

/-! ## Entries -/

theorem typeChild_id (container : String) (c : Control) :
    (typeChild ctx container (.mk c [])).control.id = c.id := by
  simp only [typeChild, Node.modify, Node.control]
  by_cases ht : c.type = "" <;> by_cases hp : (c.dataPointer.isNone && container == "array") = true
  all_goals simp [ht, hp, setType]

theorem typeChildren_ids (c : Control) (items : List Node) :
    Node.ids [typeChildren ctx (.mk c items)] = Node.ids [.mk c items] := by
  have hitems : Node.ids (items.map (typeChild ctx c.type)) = Node.ids items := by
    refine Node.ids_map_modify (fun child => ?_) items
    exact typeChild_id c.type child
  simp only [typeChildren, Node.withItems, Node.items, Node.control, Node.ids_mk, hitems]

theorem bindNode_draws {isContainer : Bool} {n made : Node}
    (h : (bindNode ctx isContainer n).Runs p made q) : Draws p q [n] [made] := by
  obtain ⟨c, found, bounds, existing, s₁, s, hc, -, -, hl, ht, -, -, h⟩ := runs_bindNode h
  have hn : Draws p s [n] [typeChildren ctx (.mk c n.items)] := by
    refine .of_advances (.of_eq hl ht) ?_
    cases n with
    | mk c' items => rw [typeChildren_ids, Node.ids_mk, Node.ids_mk, hc.id]; rfl
  refine hn.trans ?_
  rcases runs_fillBound h with ⟨rfl, rfl⟩ | ⟨-, b, -, ha⟩ | ⟨-, pointer, -, he⟩
  · exact .refl _ _
  · exact expandArray_draws ha
  · refine Draws.trans (.of_advances (.refl _) ?_) (Generate.expandBound_draws he)
    rw [Node.ids_mk, typeChildren, Node.withItems, Node.ids_mk]
    exact (List.subperm_cons _).mpr List.nil_subperm

theorem withTitle_id (c : Control) : (Generate.withTitle c).id = c.id := by
  unfold Generate.withTitle
  split <;> rfl

theorem finishFree_ids (isContainer : Bool) (n : Node) :
    Node.ids [finishFree ctx isContainer n] = Node.ids [n] := by
  rcases finishFree_cases isContainer n with hn | ⟨c, hc, hn⟩
  · rw [hn]
  · rw [hn, typeChildren_ids]
    cases n with
    | mk c' items => rw [Node.ids_mk, Node.ids_mk, hc.id]; rfl

theorem composeEntry_draws {item : Json} {children : Option (List Node)} {pointer : String}
    {mapped : Mapped Node} (h : (composeEntry ctx item children pointer).Runs p mapped q) :
    Draws p q (children.getD []) mapped.toList := by
  obtain ⟨s, rfl, h⟩ := runs_composeEntry h
  have hp : p.Advances { p with lastId := p.lastId + 1 } := ⟨Nat.le_succ _, id⟩
  rcases h with ⟨-, rfl, rfl⟩ | ⟨parts, n, -, rfl, h⟩
  · exact .none hp _
  · have hn : Draws p { p with lastId := p.lastId + 1 } (children.getD [])
        [entryNode parts (children.getD []) pointer (p.lastId + 1)] := by
      refine ⟨hp, ?_⟩
      rw [entryNode, Node.ids_mk, issued_succ]
      exact (List.perm_append_singleton _ _).symm.subperm
    rcases h with ⟨-, hw⟩ | ⟨-, made, -, hb, rfl⟩ | ⟨rfl, rfl⟩
    · exact (Draws.none hp _).trans ((Generate.numbers_run hw).2 rfl)
    · refine (hn.trans (bindNode_draws hb)).weaken ?_
      rw [Mapped.toList, Node.ids_modify withTitle_id]
    · refine hn.weaken ?_
      rw [Mapped.toList, Node.ids_modify withTitle_id, finishFree_ids]

mutual

theorem entry_draws (above : String) (index : Nat) :
    ∀ (entry : Entry) {p mapped q}, (Entry.map (step ctx) above index entry).Runs p mapped q →
      Draws p q [] mapped.toList
  | .leaf item, p, mapped, q, h => by
      rw [Entry.map] at h
      exact composeEntry_draws h
  | .branch item children, p, mapped, q, h => by
      simp only [Entry.map, runs_bind] at h
      obtain ⟨built, s, hc, h⟩ := h
      exact (entries_draws _ 0 children hc).trans (composeEntry_draws h)

theorem entries_draws (above : String) (index : Nat) :
    ∀ (entries : List Entry) {p made q},
      (Entry.mapAll (step ctx) above index entries).Runs p made q → Draws p q [] made
  | [], p, made, q, h => by
      simp only [Entry.mapAll, runs_pure] at h
      obtain ⟨rfl, rfl⟩ := h
      exact .refl _ _
  | entry :: rest, p, made, q, h => by
      simp only [Entry.mapAll, runs_bind, runs_pure] at h
      obtain ⟨mapped, s, hm, more, s', hr, rfl, rfl⟩ := h
      exact (entry_draws above index entry hm).append (entries_draws above _ rest hr)

end

theorem withTitleMap_id (flat : Bool) (c : Control) : (withTitleMap flat c).id = c.id := by
  unfold withTitleMap
  split <;> rfl

theorem layout_draws {entries : List Json} {made : List Node}
    (h : (layout ctx entries).Runs p made q) : Draws p q [] made := by
  obtain ⟨nodes, s, nodes', s', hn, hs, rfl, rfl⟩ := runs_layout h
  have htop : Node.ids (nodes.map (·.modify (topControl ctx))) = Node.ids nodes := by
    refine Node.ids_map_modify (fun c => ?_) nodes
    unfold topControl
    split <;> rfl
  have hd : Draws p s' [] nodes' := by
    have hentries : Draws p s [] (nodes.map (·.modify (topControl ctx))) := by
      refine (entries_draws "" 0 _ hn).weaken ?_
      rw [htop]
    refine hentries.trans ?_
    rcases runs_withSubmit hs with ⟨rfl, rfl⟩ | ⟨rfl, rfl⟩
    · exact .refl _ _
    · refine ⟨⟨Nat.le_succ _, id⟩, ?_⟩
      rw [Node.ids_append, issued_succ]
      exact List.Subperm.refl _
  refine ⟨⟨hd.advances.le, fun hp => ?_⟩, ?_⟩
  · exact (hd.advances.unnumbered hp).mapControls (withTitleMap_id _)
  · rw [Node.ids_mapAll (withTitleMap_id _)]
    exact hd.ids

end Compose

/-! ## Forms -/

namespace Form

/-- Places copies of templates one after the other, each under a name at a site. -/
def placeAll (f : Form) : List (String × Site) → List Node × Form
  | [] => ([], f)
  | (name, site) :: rest =>
      let (node, f) := f.instantiate name site
      let (more, f) := f.placeAll rest
      (node.toList ++ more, f)

theorem instantiate_draws (f : Form) (name : String) (site : Site) :
    Draws f.progress (f.instantiate name site).2.progress []
      (f.instantiate name site).1.toList := by
  unfold Form.instantiate
  split
  · next t _ => exact placed_draws (runs_placed.mpr ⟨rfl, rfl⟩)
  · exact .refl _ _

theorem instantiate_templates (f : Form) (name : String) (site : Site) :
    (f.instantiate name site).2.progress.templates = f.progress.templates := by
  unfold Form.instantiate
  split <;> rfl

theorem placeAll_draws : ∀ (calls : List (String × Site)) (f : Form),
    Draws f.progress (f.placeAll calls).2.progress [] (f.placeAll calls).1
  | [], _ => .refl _ _
  | (name, site) :: rest, f =>
      (f.instantiate_draws name site).append (placeAll_draws rest _)

theorem placeAll_templates : ∀ (calls : List (String × Site)) (f : Form),
    (f.placeAll calls).2.progress.templates = f.progress.templates
  | [], _ => rfl
  | (name, site) :: rest, f =>
      (placeAll_templates rest _).trans (f.instantiate_templates name site)

/-- **Ids are given out once.**  The nodes of a layout and all nodes placed after
it was compiled have ids, no two the same, and stored templates have none, before
and after the placing. -/
theorem ids_distinct {options : FormOptions} {widgets : Registry}
    {schema layout data : Option Json} {form : Form}
    (h : compile options widgets schema layout data = .ok form) (calls : List (String × Site)) :
    (∀ id ∈ Node.ids (form.layout ++ (form.placeAll calls).1), id.isSome = true) ∧
      (Node.ids (form.layout ++ (form.placeAll calls).1)).Nodup ∧
      (form.placeAll calls).2.progress.templates = form.progress.templates ∧
      form.progress.templates.Unnumbered := by
  obtain ⟨document, entries, -, -, -, hrun⟩ := compile_ok h
  have hlayout := Compose.layout_draws hrun
  have hall := hlayout.append (placeAll_draws calls form)
  have hids : (Node.ids (form.layout ++ (form.placeAll calls).1)).Subperm
      (issued 0 (form.placeAll calls).2.progress.lastId) := hall.ids
  refine ⟨fun id hid => isSome_of_mem_issued (hids.subset hid), ?_,
    placeAll_templates calls form, ?_⟩
  · obtain ⟨l, hperm, hsub⟩ := hids
    exact hperm.nodup_iff.mp ((issued_nodup 0 _).sublist hsub)
  · exact hlayout.advances.unnumbered fun _ _ ht => absurd ht List.not_mem_nil

def tagsSchema : Json :=
  .obj [("type", .str "object"), ("properties", .obj [("tags", .obj [("type", .str "array"),
    ("items", .obj [("type", .str "string")])])])]

/-- Two tags more, and a node of a name that there is no template for. -/
def moreTags : List (String × Site) :=
  [("/tags/-", ⟨"/tags/7", ""⟩), ("/names/-", ⟨"/names/0", ""⟩), ("/tags/-", ⟨"/tags/8", ""⟩)]

theorem ids_distinct_tags :
    ∃ form, compile {} [] (some tagsSchema) none none = .ok form ∧
      Node.ids form.layout = [some 3, some 4, some 5, some 6] ∧
      Node.ids (form.placeAll moreTags).1 = [some 7, some 8] ∧
      (Node.ids (form.layout ++ (form.placeAll moreTags).1)).Nodup ∧
      form.progress.templates.Unnumbered := by
  have hcompiled : (compile {} [] (some tagsSchema) none none).toOption.any (fun form =>
      decide (Node.ids form.layout = [some 3, some 4, some 5, some 6]) &&
        decide (Node.ids (form.placeAll moreTags).1 = [some 7, some 8])) = true := by
    decide +kernel
  obtain ⟨form, hform, hcompiled⟩ := exists_ok_of_any hcompiled
  simp only [Bool.and_eq_true, decide_eq_true_eq] at hcompiled
  obtain ⟨-, hdistinct, -, hunnumbered⟩ := ids_distinct hform moreTags
  exact ⟨form, hform, hcompiled.1, hcompiled.2, hdistinct, hunnumbered⟩

end Form

end SchemaForm
