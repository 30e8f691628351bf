/-
Positions in composed layouts.

In the layout of a description with stars at the top only, the nodes at the top have the
layout pointer of the top, and every child has the one right below its parent's, as long
as no copy is misplaced:

    all children are right below their parents  ↔  no copy is misplaced

(`Form.positions_iff`).  A copy is misplaced in an array that asks for a template by its
name, when the template was built absolute for an array of that name at another depth.
Which arrays ask for which names is read off the description and the schema (`Laid`), so
nothing is misplaced where each name is asked for at one depth (`Form.positions`), as in the
layout of a whole schema without references (`Form.positions_whole`).

An entry is walked after its children, and makes nodes at its depth from theirs
(`Compose.Makes`); a star at the top makes those of the whole schema.  A star further down
makes the same ones, at the top's layout pointer, which is why it is left out here.
-/
import SchemaForm.Proofs.Layout.Gathering
import SchemaForm.Proofs.Layout.Stored
import SchemaForm.Proofs.Layout.Unreferenced

namespace SchemaForm

open Build

/-! ## Arrays that ask for names -/

/-- The entry is in the description, so deep below the top. -/
inductive Entry.StandsIn (entries : List Entry) : Nat → Entry → Prop
  | top {e : Entry} : e ∈ entries → StandsIn entries 0 e
  | within {depth : Nat} {item : Json} {children : List Entry} {e : Entry} :
      StandsIn entries depth (.branch item children) → e ∈ children →
      StandsIn entries (depth + 1) e

/-- Below the top all entries are starless. -/
theorem Entry.StandsIn.starless {entries : List Entry} (hstars : Entry.StarsAtTop entries)
    {depth : Nat} {e : Entry} (h : Entry.StandsIn entries depth e) : e.Starless ∨ e.IsStar := by
  induction h with
  | top hm => exact hstars _ hm
  | within _ hm ih =>
      rcases ih with hparent | hparent
      · cases hparent with
        | branch _ hchildren => exact .inl (hchildren _ hm)
      · cases hparent

/-- In a description of one leaf there is nothing else. -/
theorem Entry.StandsIn.leaf {item : Json} {depth : Nat} {e : Entry}
    (h : Entry.StandsIn [.leaf item] depth e) : e = .leaf item := by
  induction h with
  | top hm => exact List.mem_singleton.mp hm
  | within _ _ ih => cases ih

namespace Compose

/-- The entry is bound to the data pointer, with nodes that come of its entries if it has
any. -/
inductive Binds (ctx : Setup) : Entry → String → Prop
  | leaf {item : Json} {parts : Description.Parts} {a : String} :
      Description.ofJson? item = some parts → Description.boundTo? parts [] = some a →
      Binds ctx (.leaf item) a
  | branch {item : Json} {children : List Entry} {parts : Description.Parts} {a above : String}
      {p q : Progress} {nodes : List Node} :
      (Entry.mapAll (step ctx) above 0 children).Runs p nodes q →
      Description.ofJson? item = some parts → Description.boundTo? parts nodes = some a →
      Binds ctx (.branch item children) a

/-- The request for what an entry at the depth contains that is bound to the data pointer. -/
def requestAt (ctx : Setup) (depth : Nat) (a schemaPointer : String) : Generate.Request :=
  { schemaPointer, layoutPointer := Pointer.level depth, dataPointer := ctx.generic a }

/-- Generating begins with the request: for the whole schema where a star is at the top,
or for what an entry without children is bound to. -/
inductive Begins (ctx : Setup) (entries : List Entry) : Generate.Request → Prop
  | whole {e : Entry} : e ∈ entries → e.IsStar → Begins ctx entries {}
  | bound {item : Json} {depth : Nat} {a pointer : String} :
      Entry.StandsIn entries depth (.leaf item) → Binds ctx (.leaf item) a → a ≠ "*" →
      Generate.Leads ctx (ctx.dataKey (ctx.generic a)) pointer →
      Begins ctx entries (requestAt ctx depth a pointer)

/-- The name of the items of an array that is composed for the data pointer. -/
def itemName (ctx : Setup) (a : String) : String :=
  ctx.dataKey (ctx.generic (ctx.dataKey (Pointer.anyItem (ctx.generic a))))

/-- An array at the depth asks for the name: one that is generated, or one that is composed
of the entries that its entry has. -/
inductive Laid (ctx : Setup) (entries : List Entry) : String → Nat → Prop
  | generated {r : Generate.Request} {name item : String} {depth : Nat} :
      Generate.Comes ctx (Begins ctx entries) r → Generate.Takes ctx r name item →
      r.layout = Pointer.level depth → Laid ctx entries name depth
  | composed {item : Json} {children : List Entry} {depth : Nat} {a pointer : String} :
      Entry.StandsIn entries depth (.branch item children) → Binds ctx (.branch item children) a →
      Generate.Leads ctx (ctx.dataKey (ctx.generic a)) pointer → IsArray ctx (some pointer) →
      Laid ctx entries (itemName ctx a) depth

theorem laid_asks (ctx : Setup) (entries : List Entry) :
    Generate.Asks ctx (Begins ctx entries) (Laid ctx entries) :=
  fun _ _ _ _ hcomes htakes hlayout => .generated hcomes htakes hlayout

/-- Without a description the arrays that come up for the form as a whole ask for names. -/
theorem Laid.whole {ctx : Setup} {name : String} {depth : Nat}
    (h : Laid ctx [.leaf (.str "*")] name depth) :
    ∃ r item, Generate.Comes ctx Generate.Whole r ∧ Generate.Takes ctx r name item ∧
      r.layout = Pointer.level depth := by
  cases h with
  | generated hcomes htakes hlayout =>
      refine ⟨_, _, hcomes.mono fun r hr => ?_, htakes, hlayout⟩
      cases hr with
      | whole => exact rfl
      | bound hstands hbinds hne _ =>
          cases hstands.leaf
          cases hbinds with
          | leaf hparts hbound =>
              obtain rfl := Option.some.inj hparts
              exact absurd (Option.some.inj hbound).symm hne
  | composed hstands _ _ _ => cases hstands.leaf

end Compose

/-! ## Generated contents -/

namespace Generate

variable {P : String → Nat → Prop} {ctx : Setup} {S : Request → Prop} {p q : Progress} {r : Request}
  {l : Library} {ns : List Node} {n : Node} {c : Control} {m : Nat}

/-- The template is in the library before, under the name. -/
def Given (l : Library) (name : String) (t : Template) : Prop := (name, some t) ∈ l

theorem stocked_given : Stocked ctx S (Given p.templates) p := fun _ _ hm => .inl hm

/-- The requests are laid out at a depth, for data pointers that do not begin with a star. -/
structure Starts (S : Request → Prop) : Prop where
  levelled : ∀ r, S r → r.Levelled
  unstarred : ∀ r, S r → Pointer.Unstarred r.dataPointer

/-- Building goes on with upright templates. -/
theorem Proceeds.makes (h : Proceeds ctx S (Given p.templates) p q) (hS : Starts S)
    (hP : Asks ctx S P) (hp : p.templates.Unstarred)
    (hwithin : ∀ n ∈ ns, n.Within Pointer.Unstarred)
    (hlevel : ∀ n ∈ ns, n.control.layoutPointer = Pointer.level m)
    (hupright : (∀ name t, Given p.templates name t → t.Upright P q.templates name) →
      ∀ n ∈ ns, n.Upright P q.templates) :
    Compose.Makes P p.templates q.templates m ns := by
  refine ⟨h.known.keeps, ?_, hwithin, hlevel, fun hl => .inl ?_⟩
  · intro name t hm
    exact (h.stocked name t hm).within (unstarred_reaches ctx) hS.unstarred hp
  · have hgiven : ∀ name t, Given p.templates name t → t.Upright P q.templates name :=
      fun name t hm => (hl name t hm).mono h.known.keeps
    exact ⟨fun name t hm => (h.stocked name t hm).upright hS.levelled hP hgiven, hupright hgiven⟩

theorem Yields.makes_request (h : Yields ctx S (Given p.templates) (.request r) p q ns)
    (hS : Starts S) (hP : Asks ctx S P) (hp : p.templates.Unstarred)
    (hm : r.layout = Pointer.level m) : Compose.Makes P p.templates q.templates m ns := by
  refine h.toProceeds.makes hS hP hp (fun n hn => ?_) (fun n hn => ?_) fun hgiven n hn => ?_
  · exact (h.nodes n hn).within (unstarred_reaches ctx) hS.unstarred hp
  · exact (h.nodes n hn).placed.trans hm
  · exact (h.nodes n hn).stands hS.levelled hP hgiven

theorem Yields.makes_property (h : Yields ctx S (Given p.templates) (.property r) p q ns)
    (hS : Starts S) (hP : Asks ctx S P) (hp : p.templates.Unstarred) (hr : r.Levelled)
    (hm : childLayout r r.layout = Pointer.level m) :
    Compose.Makes P p.templates q.templates m ns := by
  refine h.toProceeds.makes hS hP hp (fun n hn => ?_) (fun n hn => ?_) fun hgiven n hn => ?_
  · exact (h.nodes n hn).within (unstarred_reaches ctx) hS.unstarred hp
  · exact ((h.nodes n hn).placed hr).trans hm
  · exact (h.nodes n hn).stands hS.levelled hP hgiven

/-- The nodes of the whole schema are at the top. -/
theorem whole_makes (hS : Starts S) (hP : Asks ctx S P) (hwhole : S {})
    (hp : p.templates.Unstarred) {mapped : Mapped Node} (h : (run ctx {}).Runs p mapped q) :
    Compose.Makes P p.templates q.templates 0 mapped.toList := by
  have hlayout : ({} : Request).layout = Pointer.level 0 := layout_of_empty rfl
  rcases derives_run (.start hwhole) stocked_given h with hy | ⟨-, hy⟩
  · exact hy.makes_request hS hP hp hlayout
  · exact hy.makes_property hS hP hp ⟨0, hlayout⟩ rfl

/-- A bound control stays where it is, around the contents that its schema gives. -/
theorem expandBound_makes {pointer : String} (hS : Starts S) (hP : Asks ctx S P)
    (hr : S (boundRequest pointer c)) (hp : p.templates.Unstarred)
    (htyped : Compose.Typed ctx (some pointer) c) (hc : c.layoutPointer = Pointer.level m)
    (hwithin : c.Within Pointer.Unstarred) (h : (expandBound ctx pointer c).Runs p n q) :
    Compose.Makes P p.templates q.templates m [n] := by
  have hcomes : Comes ctx S (boundRequest pointer c) := .start hr
  have hlayout : (boundRequest pointer c).layout = Pointer.level m := layout_of_level hc
  have hreads : ∀ {schema type}, ctx.resolved.schemaAt? pointer = some schema →
      c.dataType = some type → (boundRequest pointer c).Reads ctx type schema :=
    fun hschema ht => ⟨hschema, (htyped _ _ rfl hschema).symm.trans ht⟩
  rcases runs_expandBound h with ⟨rfl, rfl⟩ | ⟨schema, hschema, ht, hroot, items, hitems, rfl⟩ |
      ⟨schema, hschema, ht, harray⟩ | ⟨schema, hschema, ht, made, hmade, rfl⟩
  · exact (Compose.Makes.nil hp).around hc hwithin
  · have hbuilt : (buildProperties (run ctx) (boundRequest pointer c) schema
        (boundRequest pointer c).layout).Runs p items q := by
      rw [hlayout, ← hc]
      exact hitems
    have hy := buildProperties_derives derives_run hcomes (hreads hschema ht) stocked_given hbuilt
    refine (hy.makes_property hS hP hp ⟨m, hlayout⟩ ?_).around hc hwithin
    rw [childLayout, hroot, hlayout]
    rfl
  · obtain ⟨items, rfl, hy, -⟩ := buildArray_derives derives_run hcomes (hreads hschema ht)
      (hc.trans hlayout.symm) stocked_given harray
    have hbound : (boundedControl ctx (boundRequest pointer c) schema c).Within
        Pointer.Unstarred := hwithin.congr rfl
    refine hy.toProceeds.makes hS hP hp (List.forall_mem_singleton.mpr ?_)
      (List.forall_mem_singleton.mpr hc) fun hgiven => List.forall_mem_singleton.mpr ?_
    · refine .mk hbound fun n hn => ?_
      exact (hy.nodes n hn).within (unstarred_reaches ctx) hS.unstarred hp (hS.unstarred _ hr)
        hbound
    · have hstands := fun n hn => (hy.nodes n hn).stands hS.levelled hP hgiven hcomes ht
        (hc.trans hlayout.symm)
      exact .around ⟨m, hc⟩ (fun n hn => (hstands n hn).1) fun n hn => (hstands n hn).2
  · obtain ⟨rfl, hy⟩ := buildReference_proceeds derives_run hcomes (hreads hschema ht)
      stocked_given hmade
    have hlibrary : Compose.Makes P p.templates q.templates (m + 1) [] := by
      refine hy.makes hS hP hp ?_ ?_ fun _ => ?_
      all_goals exact fun _ hn => absurd hn List.not_mem_nil
    refine hlibrary.around ?_ (hwithin.congr (referenceControl_dataPointer _ _ _ _))
    exact (referenceControl_layoutPointer _ _ _ _).trans hc

theorem withTitle_keepsPlace : KeepsPlace withTitle :=
  ⟨withTitle_layoutPointer, withTitle_dataType⟩

end Generate

namespace Compose

variable {P : String → Nat → Prop} {S : Generate.Request → Prop} {ctx : Setup} {p q : Progress}
  {l l' : Library} {m : Nat} {ns : List Node} {c : Control} {n made : Node}
  {entries : List Entry}

/-! ## Entries -/

/-- Generating starts from what the entries are bound to. -/
theorem begins_starts (ctx : Setup) (hstars : Entry.StarsAtTop entries) :
    Generate.Starts (Begins ctx entries) := by
  constructor
  · intro r hr
    cases hr with
    | whole => exact ⟨0, Generate.layout_of_empty rfl⟩
    | bound => exact ⟨_, Generate.layout_of_level rfl⟩
  · intro r hr
    cases hr with
    | whole => exact Pointer.unstarred_empty
    | @bound item depth a pointer hstands hbinds hne _ =>
        show Pointer.Unstarred (ctx.generic a)
        refine unstarred_generic ctx ?_
        cases hbinds with
        | @leaf _ parts _ hparts hbound =>
            rcases hstands.starless hstars with hstarless | hstar
            · cases hstarless with
              | leaf hitem =>
                  exact Description.boundTo?_unstarred (hitem parts hparts)
                    (fun _ hn => absurd hn List.not_mem_nil) hbound
            · cases hstar with
              | leaf hparts' hstar =>
                  obtain rfl := Option.some.inj (hparts.symm.trans hparts')
                  exact absurd (Option.some.inj (hbound.symm.trans hstar)) hne

/-- Typing a child changes only its control. -/
theorem typeChild_eq (ctx : Setup) (container : String) :
    ∃ f, KeepsPlace f ∧ (∀ c, (f c).dataPointer = c.dataPointer) ∧
      typeChild ctx container = Node.modify f := by
  refine ⟨_, ⟨fun c => ?_, fun c => ?_⟩, fun c => ?_, rfl⟩
  all_goals
    dsimp only
    repeat' split
    all_goals rfl

theorem fillName_groupingFor {a : String} (h : c.dataPointer = some (ctx.generic a)) :
    fillName ctx (groupingFor ctx c) = itemName ctx a := by
  simp only [fillName, groupingFor, itemName, h, Option.getD_some]

theorem boundRequest_eq {a : String} (hd : c.dataPointer = some (ctx.generic a))
    (hl : c.layoutPointer = Pointer.level m) (pointer : String) :
    Generate.boundRequest pointer c = requestAt ctx m a pointer := by
  simp only [Generate.boundRequest, requestAt, hd, hl, Option.getD_some]

/-- What generating starts from and the names that are asked for, for an entry at the depth
that is bound to the data pointer. -/
structure Admits (ctx : Setup) (S : Generate.Request → Prop) (P : String → Nat → Prop)
    (isContainer : Bool) (m : Nat) (a : String) : Prop where
  begins : isContainer = false → ∀ pointer,
    Generate.Leads ctx (ctx.dataKey (ctx.generic a)) pointer → S (requestAt ctx m a pointer)
  asked : isContainer = true → ∀ pointer,
    Generate.Leads ctx (ctx.dataKey (ctx.generic a)) pointer → IsArray ctx (some pointer) →
      P (itemName ctx a) m

namespace Makes

theorem typed (h : Makes P l l' m ns) (container : String) :
    Makes P l l' m (ns.map (typeChild ctx container)) := by
  obtain ⟨f, hf, hd, htype⟩ := typeChild_eq ctx container
  rw [htype]
  exact h.modify hf fun c hc => hc.congr (hd c)

theorem typeChildren (h : Makes P l l' (m + 1) ns) (hc : c.layoutPointer = Pointer.level m)
    (hwithin : c.Within Pointer.Unstarred) :
    Makes P l l' m [Compose.typeChildren ctx (.mk c ns)] :=
  (h.typed c.type).around hc hwithin

theorem bindNode (hfolds : ∀ rule ∈ ctx.resolved.dataFolds, Pointer.RuleWritten rule)
    (hS : Generate.Starts S) (hP : Generate.Asks ctx S P)
    (hleads : Generate.LeadsAll ctx p.dataMap) (h : Makes P l p.templates (m + 1) n.items)
    (hn : n.control.layoutPointer = Pointer.level m) (hwithin : n.control.Within Pointer.Unstarred)
    {a : String} (ha : n.control.dataPointer = some a) {isContainer : Bool}
    (hadmits : Admits ctx S P isContainer m a) (hitems : isContainer = false → n.items = [])
    (hrun : (Compose.bindNode ctx isContainer n).Runs p made q) :
    Makes P l q.templates m [made] := by
  obtain ⟨c, found, bounds, existing, s₁, s, hd, harray, htyped, -, htemplates, hfound, -, hrun⟩ :=
    runs_bindNode hrun
  rw [ha, Option.getD_some] at hd hfound
  obtain ⟨-, hfound⟩ := Generate.schemaPointerFor_leads hleads hfound
  have hc : c.layoutPointer = Pointer.level m := hd.layoutPointer.trans hn
  have hdata : c.dataPointer = some (ctx.generic a) := hd.dataPointer
  have hbound : c.Within Pointer.Unstarred := by
    intro b hb
    obtain rfl := Option.some.inj (hdata.symm.trans hb)
    exact unstarred_generic ctx (hwithin a ha)
  rw [← htemplates] at h
  rcases runs_fillBound hrun with ⟨rfl, rfl⟩ | ⟨hbranch, b, hb, hexpand⟩ |
      ⟨hleaf, pointer, rfl, hexpand⟩
  · exact h.typeChildren hc hbound
  · obtain ⟨pointer, schema, rfl, hschema⟩ := harray b hb
    have hasked : P (fillName ctx (groupingFor ctx c)) m := by
      rw [fillName_groupingFor hdata]
      exact hadmits.asked hbranch pointer (hfound pointer rfl) ⟨pointer, schema, rfl, hschema⟩
    exact expandArray (n := Compose.typeChildren ctx (.mk c n.items)) hfolds (h.typed c.type) hc
      (htyped.array ⟨pointer, schema, rfl, hschema⟩) hbound hasked hexpand
  · have hr : S (Generate.boundRequest pointer c) := by
      rw [boundRequest_eq hdata hc]
      exact hadmits.begins hleaf pointer (hfound pointer rfl)
    rw [hitems hleaf] at h
    exact h.empty.append
      (Generate.expandBound_makes hS hP hr h.unstarred htyped hc hbound hexpand)

theorem finishFree (h : Makes P l l' (m + 1) n.items)
    (hn : n.control.layoutPointer = Pointer.level m)
    (hwithin : n.control.Within Pointer.Unstarred) (isContainer : Bool) :
    Makes P l l' m [Compose.finishFree ctx isContainer n] := by
  rcases finishFree_cases isContainer n with hsame | ⟨c, hc, htyped⟩
  · rw [hsame]
    cases n with
    | mk c items => exact h.around hn hwithin
  · rw [htyped]
    exact h.typeChildren (hc.layoutPointer.trans hn) (hwithin.congr hc.dataPointer)

/-- A starless entry makes its node at its depth from those of its children. -/
theorem composeEntry (hfolds : ∀ rule ∈ ctx.resolved.dataFolds, Pointer.RuleWritten rule)
    (hS : Generate.Starts S) (hP : Generate.Asks ctx S P)
    (hleads : Generate.LeadsAll ctx p.dataMap) {item : Json} (children : Option (List Node))
    {pointer : String} {mapped : Mapped Node}
    (h : Makes P l p.templates (m + 1) (children.getD []))
    (hdepth : Pointer.genericLayout pointer = Pointer.level m)
    (hitem : ∀ parts, Description.ofJson? item = some parts → parts.Starless)
    (hadmits : ∀ parts a, Description.ofJson? item = some parts →
      Description.boundTo? parts (children.getD []) = some a → a ≠ "*" →
      Admits ctx S P children.isSome m a)
    (hdrop : Description.ofJson? item = none → children = none)
    (hrun : (Compose.composeEntry ctx item children pointer).Runs p mapped q) :
    Makes P l q.templates m mapped.toList := by
  obtain ⟨s, rfl, hcases⟩ := runs_composeEntry hrun
  rcases hcases with ⟨hnone, rfl, rfl⟩ | ⟨parts, n, hparts, hn, hcases⟩
  · rw [hdrop hnone] at h
    exact h.empty
  · have hitems : n.items = children.getD [] := by
      rw [hn]
      rfl
    have hlayout : n.control.layoutPointer = Pointer.level m := by
      rw [hn]
      exact hdepth
    have hwithin : n.control.Within Pointer.Unstarred := by
      intro a ha
      rw [hn] at ha
      exact Description.boundTo?_unstarred (hitem parts hparts) h.within ha
    have hleaf : children.isSome = false → n.items = [] := by
      intro hnone
      rw [Option.isSome_eq_false_iff, Option.isNone_iff_eq_none] at hnone
      rw [hitems, hnone, Option.getD_none]
    have htitled : ∀ {made}, Makes P l q.templates m [made] →
        Makes P l q.templates m [made.modify Generate.withTitle] := fun hmade =>
      hmade.modify Generate.withTitle_keepsPlace
        fun c hc => hc.congr (Generate.withTitle_dataPointer c)
    rw [← hitems] at h
    rcases hcases with ⟨hstar, -⟩ | ⟨a, made, ha, hbind, rfl⟩ | ⟨rfl, rfl⟩
    -- The entry does not stand for the whole schema.
    · exact absurd (hwithin "*" hstar) Pointer.not_unstarred_star
    · have hne : a ≠ "*" := fun he => Pointer.not_unstarred_star (he ▸ hwithin a ha)
      have hbound : Description.boundTo? parts (children.getD []) = some a := by
        rw [hn] at ha
        exact ha
      exact htitled (bindNode (p := { p with lastId := p.lastId + 1 }) hfolds hS hP hleads h
        hlayout hwithin ha (hadmits parts a hparts hbound hne) hleaf hbind)
    · exact htitled (finishFree h hlayout hwithin children.isSome)

end Makes

/-! ## Descriptions -/

/-- What holds of the entries of a list, one after the other, holds of the list. -/
theorem entries_make {es : List Entry} {above : String}
    (habove : Pointer.anyItem (Pointer.genericLayout above) = Pointer.level m)
    (h : ∀ e ∈ es, ∀ {index p mapped q}, p.templates.Unstarred → Generate.Sound ctx True p [] →
      (Entry.map (step ctx) above index e).Runs p mapped q →
        Makes P p.templates q.templates m mapped.toList) :
    ∀ {index : Nat} {p q : Progress} {made : List Node}, p.templates.Unstarred →
      Generate.Sound ctx True p [] → (Entry.mapAll (step ctx) above index es).Runs p made q →
        Makes P p.templates q.templates m made := by
  induction es with
  | nil =>
      intro index p q made hp _ hrun
      obtain ⟨rfl, rfl⟩ := runs_pure.mp hrun
      exact .nil hp
  | cons entry rest ih =>
      intro index p q made hp hsound hrun
      simp only [Entry.mapAll, runs_bind, runs_pure] at hrun
      obtain ⟨mapped, s, hmapped, more, s', hmore, rfl, rfl⟩ := hrun
      have hfirst := h entry List.mem_cons_self hp hsound hmapped
      have hs := (entry_brings entry habove (fun _ => trivial) hsound hmapped).sound hsound
      have hrest := ih (fun e he => h e (List.mem_cons_of_mem _ he)) hfirst.unstarred
        (hs.subset (List.nil_subset _)) hmore
      exact hfirst.append hrest

/-- **Entries.**  A starless entry of a description makes nodes at its depth, whatever is
within it. -/
theorem entry_makes (hfolds : ∀ rule ∈ ctx.resolved.dataFolds, Pointer.RuleWritten rule)
    (hstars : Entry.StarsAtTop entries) {e : Entry} (he : e.Starless) :
    ∀ {above : String} {index m : Nat} {p q : Progress} {mapped : Mapped Node},
      Entry.StandsIn entries m e →
      Pointer.anyItem (Pointer.genericLayout above) = Pointer.level m →
      p.templates.Unstarred → Generate.Sound ctx True p [] →
      (Entry.map (step ctx) above index e).Runs p mapped q →
        Makes (Laid ctx entries) p.templates q.templates m mapped.toList := by
  have hS := begins_starts ctx hstars
  have hP := laid_asks ctx entries
  -- On the entry: the children are at the next depth, whatever was made before them.
  induction he with
  | @leaf item hitem =>
      intro above index m p q mapped hstands habove hp hsound hrun
      have hdepth := (Pointer.genericLayout_item above index).trans habove
      refine Makes.composeEntry hfolds hS hP hsound.leads none (.nil hp) hdepth hitem ?_
        (fun _ => rfl) hrun
      intro parts a hparts hbound hne
      refine ⟨fun _ pointer hleads => ?_, fun hcontainer => absurd hcontainer Bool.false_ne_true⟩
      exact .bound hstands (.leaf hparts hbound) hne hleads
  | @branch members children hparts _ ih =>
      intro above index m p q mapped hstands habove hp hsound hrun
      have hdepth := (Pointer.genericLayout_item above index).trans habove
      have hbelow : Pointer.anyItem (Pointer.genericLayout (Pointer.item above index ++ "/items")) =
          Pointer.level (m + 1) := by
        rw [Pointer.genericLayout_items, hdepth]
        rfl
      simp only [Entry.map, runs_bind] at hrun
      obtain ⟨built, s, hbuilt, hrun⟩ := hrun
      have hchildren : Makes (Laid ctx entries) p.templates s.templates (m + 1) built :=
        entries_make hbelow (fun e he => ih e he (.within hstands he) hbelow) hp hsound hbuilt
      have hs := (entries_brings children hbelow (fun _ => trivial) hsound hbuilt).sound hsound
      refine Makes.composeEntry hfolds hS hP hs.leads (some built) hchildren hdepth ?_ ?_ ?_ hrun
      · intro parts hsome
        obtain rfl := Option.some.inj hsome
        exact hparts
      · intro parts a hsome hbound _
        refine ⟨fun hcontainer => absurd hcontainer.symm Bool.false_ne_true, ?_⟩
        exact fun _ pointer hleads harray =>
          .composed hstands (.branch hbuilt hsome hbound) hleads harray
      · intro hnone
        exact absurd hnone (Option.some_ne_none _)

/-- An entry at the top makes nodes at the top, also if it stands for the whole schema. -/
theorem topEntry_makes (hfolds : ∀ rule ∈ ctx.resolved.dataFolds, Pointer.RuleWritten rule)
    (hstars : Entry.StarsAtTop entries) {e : Entry} (he : e ∈ entries) {index : Nat}
    {mapped : Mapped Node} (hp : p.templates.Unstarred) (hsound : Generate.Sound ctx True p [])
    (hrun : (Entry.map (step ctx) "" index e).Runs p mapped q) :
    Makes (Laid ctx entries) p.templates q.templates 0 mapped.toList := by
  rcases hstars e he with hstarless | hstar
  · refine entry_makes hfolds hstars hstarless (.top he) ?_ hp hsound hrun
    rw [Pointer.genericLayout_empty]
    rfl
  · have hwhole : Begins ctx entries {} := .whole he hstar
    obtain ⟨hparts, hbound⟩ := hstar
    exact Generate.whole_makes (p := { p with lastId := p.lastId + 1 }) (begins_starts ctx hstars)
      (laid_asks ctx entries) hwhole hp (runs_starEntry hparts hbound hrun)

/-- The layout is made at the top, before the title maps are added. -/
theorem layout_makes (hfolds : ∀ rule ∈ ctx.resolved.dataFolds, Pointer.RuleWritten rule)
    {entries : List Json} (hentries : Entry.StarsAtTop (Entry.ofItems entries))
    (hp : p.templates.Unstarred) (hsound : Generate.Sound ctx True p []) {made : List Node}
    (hrun : (layout ctx entries).Runs p made q) :
    ∃ l nodes, Makes (Laid ctx (Entry.ofItems entries)) p.templates l 0 nodes ∧
      made = Node.mapAll (withTitleMap ctx.options.flatList) nodes ∧
      q.templates = l.mapControls (withTitleMap ctx.options.flatList) := by
  obtain ⟨nodes, s, submitted, s', hnodes, hsubmit, rfl, rfl⟩ := runs_layout hrun
  have habove : Pointer.anyItem (Pointer.genericLayout "") = Pointer.level 0 := by
    rw [Pointer.genericLayout_empty]
    rfl
  have hmade : Makes (Laid ctx (Entry.ofItems entries)) p.templates s.templates 0 nodes :=
    entries_make habove (fun e he => topEntry_makes hfolds hentries he) hp hsound hnodes
  have htop := hmade.modify (topControl_keepsPlace ctx)
    fun c hc => hc.congr (topControl_dataPointer ctx c)
  refine ⟨s'.templates, submitted, ?_, rfl, rfl⟩
  rcases runs_withSubmit hsubmit with ⟨rfl, rfl⟩ | ⟨rfl, rfl⟩
  · exact htop
  · refine htop.append ((Makes.nil htop.unstarred).around rfl ?_)
    exact fun a ha => absurd ha (Option.some_ne_none a).symm

end Compose

/-! ## Whole forms -/

namespace Form

open Compose (Laid)

/-- The second control is in an array that asks for a template by its name, and a copy of
that template, which was built for an array of the name at another depth. -/
def Misplaced (form : Form) (entries : List Json) (c d : Control) : Prop :=
  Crosses (Laid form.setup (Entry.ofItems entries)) form.progress.templates c d

variable {options : FormOptions} {widgets : Registry} {schema layout data : Option Json}
  {form : Form} {entries : List Json}

/-- The nodes of a layout are at the top, and either all of it is straight or something is
misplaced. -/
theorem erect_or_misplaced (h : compile options widgets schema layout data = .ok form)
    (hentries : entriesOf layout = .ok entries)
    (hstars : Entry.StarsAtTop (Entry.ofItems entries)) :
    (∀ n ∈ form.layout, n.control.layoutPointer = Pointer.level 0) ∧
      ((∀ link ∈ Node.linksAll form.layout, link.1.Under link.2) ∨
        ∃ link ∈ Node.linksAll form.layout, Misplaced form entries link.1 link.2) := by
  obtain ⟨document, entries', -, hentries', hsetup, hrun⟩ := compile_ok h
  obtain rfl := Except.ok.inj (hentries.symm.trans hentries')
  obtain ⟨resolved, hresolved, hsetup⟩ := Option.map_eq_some_iff.mp hsetup
  have hfolds : ∀ rule ∈ form.setup.resolved.dataFolds, Pointer.RuleWritten rule := by
    rw [← hsetup]
    exact Resolved.dataFolds_written hresolved
  have hnone : Library.Unstarred [] := fun _ _ hm => absurd hm List.not_mem_nil
  obtain ⟨l, nodes, hmakes, hlayout, htemplates⟩ :=
    Compose.layout_makes hfolds hstars hnone (sound_start _ _) hrun
  have hf := Compose.withTitleMap_keepsPlace form.setup.options.flatList
  have hcore := Compose.withTitleMap_same Control.core (fun _ _ => rfl)
    form.setup.options.flatList
  have hlinks : ∀ link ∈ Node.linksAll form.layout, ∃ n ∈ form.layout, link ∈ n.links :=
    fun link hlink => Node.mem_linksAll.mp hlink
  have hnodes : (∀ n ∈ form.layout, n.Erect) ∨ ∃ n ∈ form.layout,
      n.Crossed (Laid form.setup (Entry.ofItems entries)) form.progress.templates := by
    rw [hlayout, htemplates, Node.mapAll_eq_map]
    rcases hmakes.upright fun _ _ hm => absurd hm List.not_mem_nil with ⟨-, hup⟩ |
      ⟨n, hn, hcross⟩
    · by_cases hcrossed : ∃ n ∈ nodes.map (·.map (Compose.withTitleMap
          form.setup.options.flatList)), n.Crossed (Laid form.setup (Entry.ofItems entries))
            (l.mapControls (Compose.withTitleMap form.setup.options.flatList))
      · exact .inr hcrossed
      · refine .inl (List.forall_mem_map.mpr fun n hn => ?_)
        exact ((hup n hn).mapControls hf hcore).erect_or_crossed.resolve_right
          fun hcross => hcrossed ⟨_, List.mem_map_of_mem hn, hcross⟩
    · exact .inr ⟨_, List.mem_map_of_mem hn, hcross.mapControls hf hcore⟩
  refine ⟨?_, hnodes.imp (fun herect link hlink => ?_) ?_⟩
  · rw [hlayout, Node.mapAll_eq_map]
    refine List.forall_mem_map.mpr fun n hn => ?_
    rw [Node.control_map, hf.layoutPointer, hmakes.level n hn]
  · obtain ⟨n, hn, hlink⟩ := hlinks link hlink
    exact herect n hn link hlink
  · rintro ⟨n, hn, link, hlink, hcrosses⟩
    exact ⟨link, Node.mem_linksAll.mpr ⟨n, hn, hlink⟩, hcrosses⟩

/-- **Positions.**  The nodes at the top of a layout have the top's layout pointer, and all
children have the one right below their parents', if and only if no copy is misplaced. -/
theorem positions_iff (h : compile options widgets schema layout data = .ok form)
    (hentries : entriesOf layout = .ok entries)
    (hstars : Entry.StarsAtTop (Entry.ofItems entries)) :
    (∀ n ∈ form.layout, n.control.layoutPointer = Pointer.anyItem "") ∧
      ((∀ link ∈ Node.linksAll form.layout, link.1.Under link.2) ↔
        ¬∃ link ∈ Node.linksAll form.layout, Misplaced form entries link.1 link.2) := by
  obtain ⟨htop, hlinks⟩ := erect_or_misplaced h hentries hstars
  refine ⟨htop, ?_, hlinks.resolve_right⟩
  rintro hall ⟨link, hlink, hmisplaced⟩
  exact hmisplaced.not_under (hall link hlink)

/-- Where each name is asked for at one depth, nothing is misplaced. -/
theorem positions (h : compile options widgets schema layout data = .ok form)
    (hentries : entriesOf layout = .ok entries)
    (hstars : Entry.StarsAtTop (Entry.ofItems entries))
    (hdepths : ∀ name i j, Laid form.setup (Entry.ofItems entries) name i →
      Laid form.setup (Entry.ofItems entries) name j → i = j) :
    ∀ link ∈ Node.linksAll form.layout, link.1.Under link.2 := by
  obtain ⟨-, hlinks⟩ := erect_or_misplaced h hentries hstars
  refine hlinks.resolve_right ?_
  rintro ⟨link, -, hmisplaced⟩
  obtain ⟨name, t, built, here, hforeign, -⟩ := hmisplaced.foreign
  exact hforeign.apart (hdepths name built here hforeign.home hforeign.asked)

/-- Without references nothing is misplaced in the layout of a whole schema. -/
theorem positions_whole (h : compile options widgets schema none data = .ok form)
    (hplain : form.setup.Unreferenced) :
    ∀ link ∈ Node.linksAll form.layout, link.1.Under link.2 := by
  have hstars : Entry.StarsAtTop (Entry.ofItems [.str "*"]) := by decide +kernel
  refine positions h rfl hstars fun name i j hi hj => ?_
  obtain ⟨r, item, hr, htakes, hlayout⟩ := Laid.whole hi
  obtain ⟨r', item', hr', htakes', hlayout'⟩ := Laid.whole hj
  have hsame := hplain.layout_of_name hr hr' htakes htakes'
  exact Pointer.level_injective (hlayout.symm.trans (hsame.trans hlayout'))

/-- The layout pointers of parents and children in the form of a schema and a
description. -/
def stackedLinks (schema layout : Json) : List (String × String) :=
  match compile {} [] (some schema) (some layout) none with
  | .ok form => (Node.linksAll form.layout).map fun link =>
      (link.1.layoutPointer, link.2.layoutPointer)
  | .error _ => []

theorem mem_stackedLinks {schema layout : Json} {above below : String}
    (h : (above, below) ∈ stackedLinks schema layout) :
    ∃ form link, compile {} [] (some schema) (some layout) none = .ok form ∧
      link ∈ Node.linksAll form.layout ∧ link.1.layoutPointer = above ∧
      link.2.layoutPointer = below := by
  unfold stackedLinks at h
  split at h
  · next form hform =>
      obtain ⟨link, hlink, he⟩ := List.mem_map.mp h
      obtain ⟨habove, hbelow⟩ := Prod.mk.inj he
      exact ⟨form, link, hform, hlink, habove, hbelow⟩
  · exact absurd h List.not_mem_nil

/-- An object with one text. -/
def textSchema : Json :=
  .obj [("type", .str "object"), ("properties", .obj [("a", .obj [("type", .str "string")])])]

/-- A section with one entry. -/
def sectionOf (key : String) : Json := .obj [("type", .str "section"), ("items", .arr [.str key])]

/-- An object with a list of texts. -/
def tagListSchema : Json :=
  .obj [("type", .str "object"), ("properties", .obj [("tags", .obj [("type", .str "array"),
    ("items", .obj [("type", .str "string")])])])]

/-- A section with a list at the top is straight; a second one with the list shows the item
that was built for the first. -/
theorem positions_iff_section :
    (∃ form, compile {} [] (some textSchema) (some (.arr [sectionOf "a", .str "*"])) none =
        .ok form ∧
      (∀ n ∈ form.layout, n.control.layoutPointer = Pointer.anyItem "") ∧
      (∀ link ∈ Node.linksAll form.layout, link.1.Under link.2)) ∧
    ∃ form, compile {} [] (some tagListSchema) (some (.arr [.str "tags", sectionOf "tags"])) none =
        .ok form ∧
      (∀ n ∈ form.layout, n.control.layoutPointer = Pointer.anyItem "") ∧
      ∃ link ∈ Node.linksAll form.layout,
        Misplaced form [.str "tags", sectionOf "tags"] link.1 link.2 := by
  constructor
  · have hplain : (compile {} [] (some textSchema) (some (.arr [sectionOf "a", .str "*"]))
        none).toOption.any (fun form => (Node.linksAll form.layout).all fun link =>
          link.1.dataType != some "array") = true := by decide +kernel
    have hstars : Entry.StarsAtTop (Entry.ofItems [sectionOf "a", .str "*"]) := by decide +kernel
    obtain ⟨form, hform, hplain⟩ := exists_ok_of_any hplain
    obtain ⟨htop, hiff⟩ := positions_iff hform rfl hstars
    refine ⟨form, hform, htop, hiff.mpr ?_⟩
    rintro ⟨link, hlink, hmisplaced⟩
    exact bne_iff_ne.mp (List.all_eq_true.mp hplain link hlink) hmisplaced.dataType
  · have happart : (compile {} [] (some tagListSchema) (some (.arr [.str "tags", sectionOf "tags"]))
        none).toOption.any (fun form => (Node.linksAll form.layout).any fun link =>
          link.2.layoutPointer != Pointer.anyItem (link.1.layoutPointer ++ "/items")) = true := by
      decide +kernel
    have hstars : Entry.StarsAtTop (Entry.ofItems [.str "tags", sectionOf "tags"]) := by
      decide +kernel
    obtain ⟨form, hform, happart⟩ := exists_ok_of_any happart
    obtain ⟨htop, hiff⟩ := positions_iff hform rfl hstars
    refine ⟨form, hform, htop, ?_⟩
    by_contra hnone
    obtain ⟨link, hlink, hne⟩ := List.any_eq_true.mp happart
    exact bne_iff_ne.mp hne (hiff.mpr hnone link hlink)

/-- A star in a section makes its node at the top. -/
theorem not_positions :
    ∃ form link, compile {} [] (some textSchema) (some (.arr [sectionOf "*"])) none = .ok form ∧
      link ∈ Node.linksAll form.layout ∧ link.1.layoutPointer = "/-" ∧
      link.2.layoutPointer = "/-" ∧ ¬link.1.Under link.2 := by
  have hmem : ("/-", "/-") ∈ stackedLinks textSchema (.arr [sectionOf "*"]) := by decide +kernel
  obtain ⟨form, link, hform, hlink, habove, hbelow⟩ := mem_stackedLinks hmem
  refine ⟨form, link, hform, hlink, habove, hbelow, ?_⟩
  rw [Control.Under, habove, hbelow]
  decide

end Form

end SchemaForm
