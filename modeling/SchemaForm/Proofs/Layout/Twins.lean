/-
Building the same twice.

What is built depends on the progress through the templates only, and of these on the ones that
are asked for: ids are counted on, and the data map is written and not read.
`Build.Follows D R x y` says so of two computations: wherever the first one ends, the second one
ends too, started with the same templates for the names in `D`; the results are related by `R`,
the same templates are stored for these names, and none is for another name.

So a builder with more levels gives the same nodes but for their ids, whatever has been built
before for names that are not asked for (`buildNode_follows`), and building stores templates for
names that are asked for only (`properties_frame`).
-/
import SchemaForm.Proofs.Layout.Placing
import SchemaForm.Proofs.Layout.Returns
import SchemaForm.Proofs.Layout.Sizes

namespace SchemaForm

/-! ## Nodes but for their ids -/

namespace Node

variable {n m : Node} {ns ms ns' ms' : List Node} {f : Control → Control}

/-- The nodes are the same but for their ids. -/
def Same (ns ms : List Node) : Prop := ns.map bare = ms.map bare

theorem Same.refl (ns : List Node) : Same ns ns := rfl

theorem Same.append (h : Same ns ms) (h' : Same ns' ms') : Same (ns ++ ns') (ms ++ ms') := by
  unfold Same at *
  rw [List.map_append, List.map_append, h, h']

theorem Same.length (h : Same ns ms) : ns.length = ms.length := by
  have hlength := congrArg List.length h
  rwa [List.length_map, List.length_map] at hlength

theorem Same.isEmpty (h : Same ns ms) : ns.isEmpty = ms.isEmpty := by
  have hempty := congrArg List.isEmpty h
  rwa [List.isEmpty_map, List.isEmpty_map] at hempty

theorem Same.getLast? (h : Same ns ms) : ns.getLast?.map bare = ms.getLast?.map bare := by
  rw [← List.getLast?_map, ← List.getLast?_map, h]

theorem Same.dropLast (h : Same ns ms) : Same ns.dropLast ms.dropLast := by
  unfold Same at *
  rw [List.map_dropLast, List.map_dropLast, h]

theorem bare_mk (c : Control) (ns : List Node) : (mk c ns).bare = mk c.bare (ns.map bare) := by
  rw [bare, map, mapAll_eq_map]
  rfl

theorem bare_modify (hf : ∀ c : Control, (f c).bare = f c.bare) (n : Node) :
    (n.modify f).bare = n.bare.modify f := by
  cases n with
  | mk c items => rw [modify, bare_mk, bare_mk, modify, hf]

theorem bare_modify_congr (hf : ∀ c : Control, (f c).bare = f c.bare) (h : n.bare = m.bare) :
    (n.modify f).bare = (m.modify f).bare := by
  rw [bare_modify hf, bare_modify hf, h]

theorem Same.modify (hf : ∀ c : Control, (f c).bare = f c.bare) (h : Same ns ms) :
    Same (ns.map (·.modify f)) (ms.map (·.modify f)) := by
  have hcomm : ∀ ls : List Node, (ls.map (·.modify f)).map bare =
      (ls.map bare).map (·.modify f) := by
    intro ls
    rw [List.map_map, List.map_map]
    exact List.map_congr_left fun n _ => bare_modify hf n
  unfold Same at *
  rw [hcomm, hcomm, h]

theorem bare_isReference (h : n.bare = m.bare) :
    n.control.isReference = m.control.isReference := by
  have hcontrol := congrArg control h
  rw [bare, bare, control_map, control_map] at hcontrol
  have href := congrArg Control.isReference hcontrol
  exact href

end Node

namespace Template

/-- Templates have no ids. -/
theorem of_bare {n m : Node} (h : n.bare = m.bare) (relative : Bool) :
    of (Generate.storedNode relative n) relative =
      of (Generate.storedNode relative m) relative := by
  have hbare : (Generate.storedNode relative n).bare = (Generate.storedNode relative m).bare := by
    unfold Generate.storedNode
    split
    · exact Node.bare_modify_congr (fun _ => rfl) h
    · exact h
  exact congrArg (Template.mk · relative) hbare

end Template

/-! ## Computations that do the same -/

namespace Progress

variable {D : String → Prop} {p q : Progress} {name : String}

/-- For the names there are the same templates in both. -/
structure SameOn (D : String → Prop) (p q : Progress) : Prop where
  entry : ∀ name, D name → Table.get? p.templates name = Table.get? q.templates name
  nodup : (Table.names p.templates).Nodup
  nodup_right : (Table.names q.templates).Nodup

namespace SameOn

theorem congr {p' q' : Progress} (h : SameOn D p q) (hp : p'.templates = p.templates)
    (hq : q'.templates = q.templates) : SameOn D p' q' := by
  obtain ⟨hentry, hn, hm⟩ := h
  constructor
  · rwa [hp, hq]
  · rwa [hp]
  · rwa [hq]

theorem knows (h : SameOn D p q) (hname : D name) :
    p.templates.knows name = q.templates.knows name := by
  rw [Library.knows, Library.knows, Table.has, Table.has, h.entry name hname]

theorem template? (h : SameOn D p q) (hname : D name) :
    p.templates.template? name = q.templates.template? name := by
  rw [Library.template?, Library.template?, h.entry name hname]

theorem insert (h : SameOn D p q) (name : String) (entry : Option Template) :
    SameOn D { p with templates := Table.insert p.templates name entry }
      { q with templates := Table.insert q.templates name entry } := by
  refine ⟨fun other hother => ?_, Table.nodup_insert h.nodup _ _,
    Table.nodup_insert h.nodup_right _ _⟩
  dsimp only
  rw [Table.get?_insert, Table.get?_insert, h.entry other hother]

theorem erase (h : SameOn D p q) (name : String) :
    SameOn D { p with templates := Table.erase p.templates name }
      { q with templates := Table.erase q.templates name } := by
  refine ⟨fun other hother => ?_, Table.nodup_erase h.nodup _, Table.nodup_erase h.nodup_right _⟩
  dsimp only
  rw [Table.get?_erase h.nodup, Table.get?_erase h.nodup_right, h.entry other hother]

end SameOn

end Progress

namespace Build

open Progress

variable {D : String → Prop} {α β γ δ : Type} {R : α → β → Prop} {S : γ → δ → Prop}
  {x : Build α} {y : Build β} {a : α} {b : β} {name : String}

/-- Wherever the first computation ends, the second one does the same on the names, and the first
one leaves the other names alone. -/
def Follows (D : String → Prop) (R : α → β → Prop) (x : Build α) (y : Build β) : Prop :=
  ∀ p a q p', x.Runs p a q → SameOn D p p' →
    (∃ b q', y.Runs p' b q' ∧ R a b ∧ SameOn D q q') ∧
      ∀ name, ¬D name → Table.get? q.templates name = Table.get? p.templates name

/-- What leaves the templates alone. -/
theorem Follows.of_runs (h : ∀ p a q p', x.Runs p a q → SameOn D p p' →
    q.templates = p.templates ∧ ∃ b q', y.Runs p' b q' ∧ R a b ∧ q'.templates = p'.templates) :
    Follows D R x y := by
  intro p a q p' hx hp
  obtain ⟨hq, b, q', hy, hab, hq'⟩ := h p a q p' hx hp
  exact ⟨⟨b, q', hy, hab, hp.congr hq hq'⟩, fun name _ => by rw [hq]⟩

theorem Follows.pure (h : R a b) : Follows D R (pure a : Build α) (pure b) := by
  refine .of_runs fun p a' q p' hx _ => ?_
  obtain ⟨rfl, rfl⟩ := runs_pure.mp hx
  exact ⟨rfl, b, p', runs_pure.mpr ⟨rfl, rfl⟩, h, rfl⟩

theorem Follows.bind {f : α → Build γ} {g : β → Build δ} (hx : Follows D R x y)
    (hf : ∀ a b, R a b → Follows D S (f a) (g b)) : Follows D S (x >>= f) (y >>= g) := by
  intro p c q p' h hp
  obtain ⟨a, s, ha, hc⟩ := runs_bind.mp h
  obtain ⟨⟨b, s', hb, hab, hs⟩, hframe⟩ := hx p a s p' ha hp
  obtain ⟨⟨d, q', hd, hcd, hq⟩, hframe'⟩ := hf a b hab s c q s' hc hs
  refine ⟨⟨d, q', runs_bind.mpr ⟨b, s', hb, hd⟩, hcd, hq⟩, fun name hname => ?_⟩
  rw [hframe' name hname, hframe name hname]

theorem Follows.map {f : α → γ} {g : β → δ} (hx : Follows D R x y)
    (hf : ∀ a b, R a b → S (f a) (g b)) : Follows D S (f <$> x) (g <$> y) := by
  rw [map_eq_pure_bind, map_eq_pure_bind]
  exact hx.bind fun a b hab => .pure (hf a b hab)

theorem follows_get : Follows D (SameOn D) (get : Build Progress) get := by
  refine .of_runs fun p a q p' hx hp => ?_
  obtain ⟨rfl, rfl⟩ := runs_get.mp hx
  exact ⟨rfl, p', p', runs_get.mpr ⟨rfl, rfl⟩, hp, rfl⟩

theorem follows_newId : Follows D (fun _ _ => True) newId newId := by
  refine .of_runs fun p a q p' hx _ => ?_
  obtain ⟨rfl, rfl⟩ := runs_newId.mp hx
  exact ⟨rfl, _, _, runs_newId.mpr ⟨rfl, rfl⟩, trivial, rfl⟩

theorem follows_note (key key' : String) (f f' : DataEntry → DataEntry) :
    Follows D (fun _ _ => True) (note key f) (note key' f') := by
  refine .of_runs fun p a q p' hx _ => ?_
  obtain rfl := runs_note.mp hx
  exact ⟨rfl, (), _, runs_note.mpr rfl, trivial, rfl⟩

theorem follows_noteRequired : Follows D (fun _ _ => True) noteRequired noteRequired := by
  refine .of_runs fun p a q p' hx _ => ?_
  obtain rfl := runs_noteRequired.mp hx
  exact ⟨rfl, (), _, runs_noteRequired.mpr rfl, trivial, rfl⟩

theorem follows_placed (t : Template) (site : Site) :
    Follows D (fun n m => n.bare = m.bare) (placed t site) (placed t site) := by
  refine .of_runs fun p a q p' hx _ => ?_
  obtain ⟨rfl, rfl⟩ := runs_placed.mp hx
  exact ⟨rfl, _, _, runs_placed.mpr ⟨rfl, rfl⟩, t.bare_place site _ _, rfl⟩

theorem follows_instantiate (hname : D name) (site : Site) :
    Follows D (fun o o' => o.map Node.bare = o'.map Node.bare) (instantiate name site)
      (instantiate name site) := by
  unfold instantiate
  refine follows_get.bind fun p p' hp => ?_
  rw [hp.template? hname]
  split
  · exact (follows_placed _ site).map fun n m h => congrArg some h
  · exact .pure rfl

theorem follows_copies (t : Template) (site : Site) (count : Nat) :
    Follows D Node.Same (copies t site count) (copies t site count) := by
  induction count with
  | zero => exact .pure (.refl [])
  | succ count ih =>
      refine (follows_placed t site).bind fun n m hnm => ih.bind fun ns ms hns => .pure ?_
      exact List.cons_eq_cons.mpr ⟨hnm, hns⟩

theorem follows_mapM {f : γ → Build α} {g : γ → Build β} {cs : List γ}
    (h : ∀ c ∈ cs, Follows D R (f c) (g c)) :
    Follows D (List.Forall₂ R) (cs.mapM f) (cs.mapM g) := by
  induction cs with
  | nil =>
      rw [List.mapM_nil, List.mapM_nil]
      exact .pure .nil
  | cons c cs ih =>
      rw [List.mapM_cons, List.mapM_cons]
      refine (h c List.mem_cons_self).bind fun a b hab => ?_
      refine (ih fun c hc => h c (List.mem_cons_of_mem _ hc)).bind fun as bs habs => ?_
      exact .pure (.cons hab habs)

theorem follows_insert (hname : D name) (entry : Option Template) :
    Follows D (fun _ _ => True) (onTemplates (Table.insert · name entry))
      (onTemplates (Table.insert · name entry)) := by
  intro p a q p' hx hp
  obtain rfl := runs_onTemplates.mp hx
  refine ⟨⟨(), _, runs_onTemplates.mpr rfl, trivial, hp.insert name entry⟩, fun other hother => ?_⟩
  have hne : name ≠ other := fun he => hother (he ▸ hname)
  rw [Table.get?_insert, if_neg hne]

theorem follows_erase (hname : D name) :
    Follows D (fun _ _ => True) (onTemplates (Table.erase · name))
      (onTemplates (Table.erase · name)) := by
  intro p a q p' hx hp
  obtain rfl := runs_onTemplates.mp hx
  refine ⟨⟨(), _, runs_onTemplates.mpr rfl, trivial, hp.erase name⟩, fun other hother => ?_⟩
  exact Table.get?_erase_of_ne fun he => hother (he ▸ hname)

end Build

namespace Generate

open Build

variable {ctx : Setup} {D : String → Prop} {build build' : Builder} {r : Request} {schema : Json}
  {c c' : Control} {name : String} {ns ms : List Node}

/-- The same nodes but for their ids. -/
def SameNodes (mapped mapped' : Mapped Node) : Prop := Node.Same mapped.toList mapped'.toList

/-- The second builder does what the first one does for all that a request asks for, and the names
that are asked for are among the ones that count. -/
structure Twins (ctx : Setup) (D : String → Prop) (build build' : Builder) (r : Request) :
    Prop where
  held : ∀ r', r.Holds ctx r' → Follows D SameNodes (build r') (build' r')
  asked : ∀ name r', r.Asks ctx name r' → D name ∧ Follows D SameNodes (build r') (build' r')

/-! ## Objects -/

theorem markRequired_follows (h : Node.Same ns ms) (required : Bool) :
    Follows D Node.Same (markRequired required ns) (markRequired required ms) := by
  unfold markRequired
  rw [h.isEmpty]
  split
  · exact follows_noteRequired.bind fun _ _ _ => .pure (h.modify fun _ => rfl)
  · exact .pure h

theorem buildProperties_follows (h : Twins ctx D build build' r)
    (hschema : ctx.resolved.schemaAt? r.schemaPointer = some schema) (layoutPointer : String) :
    Follows D Node.Same (buildProperties build r schema layoutPointer)
      (buildProperties build' r schema layoutPointer) := by
  unfold buildProperties
  split
  · exact .pure (.refl [])
  · next properties hproperties =>
      refine (follows_mapM (R := Node.Same) fun name hname => ?_).bind fun parts parts' hparts => ?_
      · refine (h.held _ (.property _ hschema hproperties hname)).bind
          fun mapped mapped' hsame => ?_
        exact markRequired_follows hsame _
      · refine .pure ?_
        induction hparts with
        | nil => exact .refl []
        | cons hpart _ ih => exact hpart.append ih

/-! ## Templates -/

theorem ensureTemplate_follows (hname : D name) (hb : Follows D SameNodes (build r) (build' r))
    (relative : Bool) :
    Follows D (fun _ _ => True) (ensureTemplate build name relative r)
      (ensureTemplate build' name relative r) := by
  unfold ensureTemplate
  refine follows_get.bind fun p p' hp => ?_
  rw [hp.knows hname]
  split
  · exact .pure trivial
  · refine (follows_insert hname none).bind fun _ _ _ => hb.bind fun mapped mapped' hsame => ?_
    have hlast := hsame.getLast?
    cases hn : mapped.toList.getLast? with
    | none =>
        rw [hn, Option.map_none, eq_comm, Option.map_eq_none_iff] at hlast
        rw [hlast]
        exact follows_erase hname
    | some n =>
        rw [hn, Option.map_some, eq_comm, Option.map_eq_some_iff] at hlast
        obtain ⟨m, hm, hnm⟩ := hlast
        rw [hm]
        have hstored : Template.of (storedNode relative m) relative =
            Template.of (storedNode relative n) relative := Template.of_bare hnm relative
        unfold storedNode at hstored
        dsimp only
        rw [hstored]
        exact follows_insert hname _

/-! ## Arrays -/

/-- Controls of arrays whose items are laid out alike. -/
structure LikeArray (c c' : Control) : Prop where
  dataPointer : c.dataPointer = c'.dataPointer
  layoutPointer : c.layoutPointer = c'.layoutPointer
  removable : c.flag "removable" true = c'.flag "removable" true
  addable : c.flag "addable" true = c'.flag "addable" true

variable {bounds : ArrayBounds} {layoutPointer : String}

theorem buildTuple_follows (h : Twins ctx D build build' r)
    (hschema : ctx.resolved.schemaAt? r.schemaPointer = some schema) (removable : Bool) :
    Follows D Node.Same
      (buildTuple build r (siteAt ctx r layoutPointer) schema bounds removable)
      (buildTuple build' r (siteAt ctx r layoutPointer) schema bounds removable) := by
  unfold buildTuple
  split
  · exact .pure (.refl [])
  · next tuple htuple =>
      refine (follows_mapM (R := fun o o' => o.map Node.bare = o'.map Node.bare)
        fun index hindex => ?_).bind fun parts parts' hparts => .pure ?_
      · have hlt : index < tuple.length :=
          Nat.lt_of_lt_of_le (List.mem_range.mp hindex) (Nat.min_le_right _ _)
        unfold buildTupleItem
        dsimp only
        split
        · obtain ⟨hname, hb⟩ := h.asked _ _ (.tuple layoutPointer hschema htuple hlt)
          exact (ensureTemplate_follows hname hb _).bind fun _ _ _ => follows_instantiate hname _
        · have hb := h.held _ (.fixed layoutPointer hschema htuple hlt)
          exact hb.bind fun mapped mapped' hsame => .pure hsame.getLast?
      · induction hparts with
        | nil => exact .refl []
        | @cons o o' _ _ hpart _ ih =>
            cases o with
            | none =>
                rw [Option.map_none, eq_comm, Option.map_eq_none_iff] at hpart
                rw [hpart]
                exact ih
            | some n =>
                rw [Option.map_some, eq_comm, Option.map_eq_some_iff] at hpart
                obtain ⟨m, rfl, hnm⟩ := hpart
                exact List.cons_eq_cons.mpr ⟨hnm.symm, ih⟩

theorem fillItems_follows (hname : D name) (h : Node.Same ns ms) (site : Site) (count : Nat) :
    Follows D Node.Same (fillItems name site count ns) (fillItems name site count ms) := by
  unfold fillItems
  refine follows_get.bind fun p p' hp => ?_
  rw [hp.template? hname, h.length]
  split
  · exact (follows_copies _ site _).bind fun more more' hmore => .pure (h.append hmore)
  · exact .pure h

theorem limitLast_same (h : Node.Same ns ms) (bounds : ArrayBounds) :
    Node.Same (limitLast bounds ns) (limitLast bounds ms) := by
  have hlast := h.getLast?
  unfold limitLast
  cases hn : ns.getLast? with
  | none =>
      rw [hn, Option.map_none, eq_comm, Option.map_eq_none_iff] at hlast
      rw [hlast]
      exact h
  | some n =>
      rw [hn, Option.map_some, eq_comm, Option.map_eq_some_iff] at hlast
      obtain ⟨m, hm, hnm⟩ := hlast
      rw [hm]
      dsimp only
      rw [Node.bare_isReference hnm]
      split
      · refine h.dropLast.append (List.cons_eq_cons.mpr ⟨?_, rfl⟩)
        exact Node.bare_modify_congr (fun _ => rfl) hnm.symm
      · exact h

theorem withAddControl_follows {site : ArraySite} (hname : D site.name) (hc : LikeArray c c')
    (h : Node.Same ns ms) :
    Follows D Node.Same (withAddControl ctx site schema c bounds ns)
      (withAddControl ctx site schema c' bounds ms) := by
  unfold withAddControl
  rw [hc.addable, h.length]
  split
  · refine follows_get.bind fun p p' hp => follows_newId.bind fun id id' _ => .pure (h.append ?_)
    have hlabel : addLabelFor p.templates site.name schema site.array =
        addLabelFor p'.templates site.name schema site.array := by
      rw [addLabelFor, addLabelFor, hp.template? hname]
    rw [hlabel]
    unfold Node.Same addControl
    rw [hc.dataPointer, hc.layoutPointer]
    rfl
  · exact .pure (limitLast_same h bounds)

theorem buildList_follows (h : Twins ctx D build build' r)
    (hschema : ctx.resolved.schemaAt? r.schemaPointer = some schema) {keyword : String}
    (hkeyword : listKeyword? schema = some keyword) (hc : LikeArray c c')
    (hns : Node.Same ns ms) :
    Follows D Node.Same
      (buildList ctx build r (siteAt ctx r layoutPointer) schema c bounds keyword ns)
      (buildList ctx build' r (siteAt ctx r layoutPointer) schema c' bounds keyword ms) := by
  obtain ⟨hname, hb⟩ :=
    h.asked _ _ (.list layoutPointer (c'.flag "removable" true) hschema hkeyword)
  unfold buildList
  rw [hc.removable]
  refine (ensureTemplate_follows hname hb _).bind fun _ _ _ => ?_
  refine (fillItems_follows hname hns _ _).bind fun filled filled' hfilled => ?_
  exact withAddControl_follows hname hc hfilled

/-- Arrays with the same limits whose items are laid out alike. -/
theorem buildArray_follows (h : Twins ctx D build build' r)
    (hschema : ctx.resolved.schemaAt? r.schemaPointer = some schema)
    (hbounds : boundsFor ctx r schema c = boundsFor ctx r schema c')
    (hc : LikeArray (boundedControl ctx r schema c) (boundedControl ctx r schema c')) :
    Follows D
      (fun n m => n.control = boundedControl ctx r schema c ∧
        m.control = boundedControl ctx r schema c' ∧ Node.Same n.items m.items)
      (buildArray ctx build r schema c) (buildArray ctx build' r schema c') := by
  unfold buildArray
  refine .bind (R := Node.Same) ?_ fun ns ms hns => (follows_note _ _ _ _).bind fun _ _ _ => ?_
  · show Follows D Node.Same
      (buildTuple build r (siteAt ctx r (boundedControl ctx r schema c).layoutPointer) schema
        (boundsFor ctx r schema c) ((boundedControl ctx r schema c).flag "removable" true))
      (buildTuple build' r (siteAt ctx r (boundedControl ctx r schema c').layoutPointer) schema
        (boundsFor ctx r schema c') ((boundedControl ctx r schema c').flag "removable" true))
    rw [← hbounds, ← hc.layoutPointer, ← hc.removable]
    exact buildTuple_follows h hschema _
  · split
    · exact .pure ⟨rfl, rfl, hns⟩
    · next keyword hkeyword =>
        refine .bind (R := Node.Same) ?_ fun made made' hmade => .pure ⟨rfl, rfl, hmade⟩
        show Follows D Node.Same
          (buildList ctx build r (siteAt ctx r (boundedControl ctx r schema c).layoutPointer)
            schema (boundedControl ctx r schema c) (boundsFor ctx r schema c) keyword ns)
          (buildList ctx build' r (siteAt ctx r (boundedControl ctx r schema c').layoutPointer)
            schema (boundedControl ctx r schema c') (boundsFor ctx r schema c') keyword ms)
        rw [← hbounds, ← hc.layoutPointer]
        exact buildList_follows h hschema hkeyword hc hns

/-! ## References -/

/-- Controls of references that stand for the same target. -/
theorem buildReference_follows (h : Twins ctx D build build' r)
    (hschema : ctx.resolved.schemaAt? r.schemaPointer = some schema)
    (htype : dataType? schema = some "$ref") (harray : c.arrayItem = c'.arrayItem)
    (hkind : c.itemKind = c'.itemKind) :
    Follows D (fun made made' => made = referenceControl ctx r c (ctx.dataKey r.fullPointer) ∧
        made' = referenceControl ctx r c' (ctx.dataKey r.fullPointer))
      (buildReference ctx build r c) (buildReference ctx build' r c') := by
  obtain ⟨hname, hb⟩ := h.asked _ _ (.target (referenceControl ctx r c (ctx.dataKey r.fullPointer))
    hschema htype)
  have htarget : targetRequest ctx r (referenceControl ctx r c' (ctx.dataKey r.fullPointer)) =
      targetRequest ctx r (referenceControl ctx r c (ctx.dataKey r.fullPointer)) := by
    have hkept : ∀ d : Control,
        (referenceControl ctx r d (ctx.dataKey r.fullPointer)).arrayItem = d.arrayItem ∧
          (referenceControl ctx r d (ctx.dataKey r.fullPointer)).itemKind = d.itemKind := by
      intro d
      unfold referenceControl
      dsimp only
      split <;> exact ⟨rfl, rfl⟩
    rw [targetRequest, targetRequest, (hkept c).1, (hkept c).2, (hkept c').1, (hkept c').2, harray,
      hkind]
  unfold buildReference
  refine .bind (R := fun _ _ => True) ?_ fun _ _ _ => .pure ⟨rfl, rfl⟩
  show Follows D (fun _ _ => True)
    (ensureTemplate build (ctx.dataKey r.fullPointer) true
      (targetRequest ctx r (referenceControl ctx r c (ctx.dataKey r.fullPointer))))
    (ensureTemplate build' (ctx.dataKey r.fullPointer) true
      (targetRequest ctx r (referenceControl ctx r c' (ctx.dataKey r.fullPointer))))
  rw [htarget]
  exact ensureTemplate_follows hname hb true

/-! ## Nodes -/

theorem referenceControl_id (ctx : Setup) (r : Request) (c : Control) (name : String)
    (id : Option Nat) :
    referenceControl ctx r { c with id } name = { referenceControl ctx r c name with id } := by
  unfold referenceControl
  dsimp only [Control.setOption]
  split <;> rfl

/-- Controls that differ in their ids only are completed alike. -/
theorem complete_follows (h : Twins ctx D build build' r)
    (hschema : ctx.resolved.schemaAt? r.schemaPointer = some schema)
    (hc : c.dataType = dataType? schema) (id : Option Nat) :
    Follows D SameNodes (complete ctx build r schema c)
      (complete ctx build' r schema { c with id }) := by
  have hone : ∀ (d : Control) (id' : Option Nat) {ns ms : List Node}, Node.Same ns ms →
      SameNodes (.one (.mk d ns)) (.one (.mk { d with id := id' } ms)) := by
    intro d id' ns ms hns
    refine List.cons_eq_cons.mpr ⟨?_, rfl⟩
    rw [Node.bare_mk, Node.bare_mk, hns]
    rfl
  dsimp only [complete]
  split
  · refine (buildProperties_follows h hschema _).bind fun ns ms hns => .pure ?_
    split
    · exact hns
    · exact hone c id hns
  · split
    · split
      · exact .pure (hone { c with options := ctx.optionsFor c.options _ } id (.refl []))
      · exact .pure (hone c id (.refl []))
    · have harray : Follows D _ (buildArray ctx build r schema c)
          (buildArray ctx build' r schema { c with id }) :=
        buildArray_follows h hschema rfl ⟨rfl, rfl, rfl, rfl⟩
      refine harray.bind fun n m hnm => .pure ?_
      obtain ⟨hn, hm, hitems⟩ := hnm
      cases n
      cases m
      obtain rfl := hn
      obtain rfl := hm
      exact hone _ id hitems
  · next htype =>
      have href : Follows D _ (buildReference ctx build r c)
          (buildReference ctx build' r { c with id }) :=
        buildReference_follows h hschema (hc.symm.trans htype) rfl rfl
      refine href.bind fun made made' hmade => .pure ?_
      obtain ⟨rfl, rfl⟩ := hmade
      rw [referenceControl_id ctx r c (ctx.dataKey r.fullPointer) id]
      exact hone _ id (.refl [])
  · exact .pure (hone c id (.refl []))

theorem withTitle_id (c : Control) (id : Option Nat) :
    withTitle { c with id } = { withTitle c with id } := by
  unfold withTitle
  dsimp only [Control.title?]
  split <;> rfl

theorem controlFor_withId (ctx : Setup) (r : Request) (schema : Json) (type : String)
    (id id' : Option Nat) :
    controlFor ctx r schema type id' = { controlFor ctx r schema type id with id := id' } := by
  rw [controlFor, controlFor, ← withTitle_id]

theorem buildOne_follows (h : Twins ctx D build build' r) :
    Follows D SameNodes (buildOne ctx build r) (buildOne ctx build' r) := by
  unfold buildOne
  split
  · exact .pure (.refl [])
  · next schema hs =>
      obtain ⟨hschema, -⟩ := Option.filter_eq_some_iff.mp hs
      split
      · exact .pure (.refl [])
      · next type htype =>
          have hcomplete : ∀ id id', Follows D SameNodes
              (complete ctx build r schema (controlFor ctx r schema type id))
              (complete ctx build' r schema (controlFor ctx r schema type id')) := by
            intro id id'
            rw [controlFor_withId ctx r schema type id id']
            exact complete_follows h hschema (controlFor_dataType ctx r schema type id) id'
          have hnoted : ∀ id id', Follows D SameNodes
              (do
                if r.dataPointer ≠ "" && !r.inTemplate then
                  note (ctx.dataKey ((controlFor ctx r schema type id).dataPointer.getD ""))
                    (entryFor r schema (controlFor ctx r schema type id))
                complete ctx build r schema (controlFor ctx r schema type id))
              (do
                if r.dataPointer ≠ "" && !r.inTemplate then
                  note (ctx.dataKey ((controlFor ctx r schema type id').dataPointer.getD ""))
                    (entryFor r schema (controlFor ctx r schema type id'))
                complete ctx build' r schema (controlFor ctx r schema type id')) := by
            intro id id'
            split
            · exact (follows_note _ _ _ _).bind fun _ _ _ => hcomplete id id'
            · exact hcomplete id id'
          simp only [buildSchema]
          split
          · exact .bind (R := fun _ _ => True) (.pure trivial) fun id id' _ => hnoted id id'
          · refine .bind (R := fun _ _ => True) ?_ fun id id' _ => hnoted id id'
            exact follows_newId.map fun _ _ _ => trivial

/-- A request that comes up within the first one, in place of it or for a template. -/
inductive Request.Below (ctx : Setup) (r : Request) : Request → Prop
  | refl : Below ctx r r
  | held {r' r'' : Request} : Below ctx r r' → r'.Holds ctx r'' → Below ctx r r''
  | asked {r' r'' : Request} {name : String} : Below ctx r r' → r'.Asks ctx name r'' →
      Below ctx r r''

/-- The template of the name is asked for within the request. -/
def Request.AsksFor (ctx : Setup) (r : Request) (name : String) : Prop :=
  ∃ r' r'', r.Below ctx r' ∧ r'.Asks ctx name r''

/-- **Building twice.**  More levels give the same nodes, but for their ids, whatever has been
built before under names that are not asked for. -/
theorem buildNode_follows {root : Request} {fuel fuel' : Nat}
    (hD : ∀ name, root.AsksFor ctx name → D name) (hfuel : fuel ≤ fuel')
    (hr : root.Below ctx r) :
    Follows D SameNodes (buildNode ctx fuel r) (buildNode ctx fuel' r) := by
  induction fuel generalizing fuel' r with
  | zero => exact fun p a q p' h => absurd h not_runs_failure
  | succ fuel ih =>
      obtain ⟨fuel', rfl⟩ : ∃ n, fuel' = n + 1 := ⟨fuel' - 1, by omega⟩
      have hle : fuel ≤ fuel' := Nat.le_of_succ_le_succ hfuel
      refine buildOne_follows ⟨fun r' hr' => ih hle (hr.held hr'), fun name r' hr' => ?_⟩
      exact ⟨hD name ⟨r, r', hr, hr'⟩, ih hle (hr.asked hr')⟩

/-- So two builders are twins for a request, the second one of which has no fewer levels. -/
theorem twins_buildNode {fuel fuel' : Nat} (hfuel : fuel ≤ fuel') (r : Request) :
    Twins ctx (r.AsksFor ctx) (buildNode ctx fuel) (buildNode ctx fuel') r :=
  ⟨fun _ hr' => buildNode_follows (fun _ h => h) hfuel (.held .refl hr'),
    fun _ r' hr' => ⟨⟨r, r', .refl, hr'⟩,
      buildNode_follows (fun _ h => h) hfuel (.asked .refl hr')⟩⟩

/-- Building the properties of the form stores templates of names that are asked for only. -/
theorem properties_frame {fuel : Nat} {p q : Progress} {names : List String}
    {layoutPointer : String} {parts : List (List Node)}
    (hp : (Table.names p.templates).Nodup)
    (h : (names.mapM (buildProperty (buildNode ctx fuel) {} schema layoutPointer)).Runs p parts q) :
    (Table.names q.templates).Nodup ∧ ∀ name,
      (∀ other ∈ names, ¬(propertyRequest {} layoutPointer other).AsksFor ctx name) →
        Table.get? q.templates name = Table.get? p.templates name := by
  let D : String → Prop := fun name =>
    ∃ other ∈ names, (propertyRequest {} layoutPointer other).AsksFor ctx name
  have hfollows : Follows D (List.Forall₂ Node.Same)
      (names.mapM (buildProperty (buildNode ctx fuel) {} schema layoutPointer))
      (names.mapM (buildProperty (buildNode ctx fuel) {} schema layoutPointer)) := by
    refine follows_mapM fun other hother => ?_
    have hbuild : Follows D SameNodes (buildNode ctx fuel (propertyRequest {} layoutPointer other))
        (buildNode ctx fuel (propertyRequest {} layoutPointer other)) :=
      buildNode_follows (fun name hname => ⟨other, hother, hname⟩) le_rfl .refl
    exact hbuild.bind fun mapped mapped' hsame => markRequired_follows hsame _
  obtain ⟨⟨parts', q', -, -, hq⟩, hframe⟩ := hfollows p parts q p h ⟨fun _ _ => rfl, hp, hp⟩
  refine ⟨hq.nodup, fun name hname => hframe name ?_⟩
  rintro ⟨other, hother, hasks⟩
  exact hname other hother hasks

end Generate

end SchemaForm
