/-
Runs of layout building.

`Build.Runs m p a q` says that the computation `m`, started with the progress
`p`, gives `a` and leaves the progress `q`.  Each step of building has one lemma
here that says everything a run of it can do; what holds of whole runs is derived
from these, and no later proof opens the definition of a step again.

A step that builds what is within a node takes the function for that as an
argument, so the lemmas speak of any such function; the induction on the depth
of nesting is left to the properties themselves.
-/
import SchemaForm.Layout.Form

namespace SchemaForm

namespace Build

/-- The computation ends, with this result and this progress. -/
def Runs {α : Type} (m : Build α) (p : Progress) (a : α) (q : Progress) : Prop :=
  m.run p = some (a, q)

variable {α β : Type} {p q : Progress}

@[simp] theorem runs_pure {a b : α} : (pure a : Build α).Runs p b q ↔ b = a ∧ q = p := by
  simp [Runs, eq_comm]

@[simp] theorem runs_bind {m : Build α} {f : α → Build β} {b : β} :
    (m >>= f).Runs p b q ↔ ∃ a r, m.Runs p a r ∧ (f a).Runs r b q := by
  simp [Runs, Option.bind_eq_some_iff]

@[simp] theorem runs_map {m : Build α} {f : α → β} {b : β} :
    (f <$> m).Runs p b q ↔ ∃ a, m.Runs p a q ∧ b = f a := by
  rw [map_eq_pure_bind, runs_bind]
  constructor
  · rintro ⟨a, r, h, he⟩
    obtain ⟨rfl, rfl⟩ := runs_pure.mp he
    exact ⟨a, h, rfl⟩
  · rintro ⟨a, h, rfl⟩
    exact ⟨a, q, h, runs_pure.mpr ⟨rfl, rfl⟩⟩

@[simp] theorem not_runs_failure {a : α} : ¬ (failure : Build α).Runs p a q := by
  simp [Runs, failure, StateT.failure, StateT.run]

@[simp] theorem runs_get {a : Progress} : (get : Build Progress).Runs p a q ↔ a = p ∧ q = p := by
  simp [Runs, eq_comm]

@[simp] theorem runs_newId {n : Nat} :
    newId.Runs p n q ↔ n = p.lastId + 1 ∧ q = { p with lastId := p.lastId + 1 } := by
  simp [newId, Runs, eq_comm]

@[simp] theorem runs_note {key : String} {f : DataEntry → DataEntry} {u : Unit} :
    (note key f).Runs p u q ↔ q = { p with dataMap := p.dataMap.update key f } := by
  simp [note, Runs, eq_comm]

@[simp] theorem runs_noteRequired {u : Unit} :
    noteRequired.Runs p u q ↔ q = { p with fieldsRequired := true } := by
  simp [noteRequired, Runs, eq_comm]

@[simp] theorem runs_onTemplates {f : Library → Library} {u : Unit} :
    (onTemplates f).Runs p u q ↔ q = { p with templates := f p.templates } := by
  simp [onTemplates, Runs, eq_comm]

@[simp] theorem runs_placed {t : Template} {site : Site} {n : Node} :
    (placed t site).Runs p n q ↔
      n = (t.place site p.lastId).1 ∧ q = { p with lastId := (t.place site p.lastId).2 } := by
  simp [placed, Runs, eq_comm]

theorem runs_instantiate {name : String} {site : Site} {made : Option Node} :
    (instantiate name site).Runs p made q ↔
      (p.templates.template? name = none ∧ made = none ∧ q = p) ∨
      ∃ t n, p.templates.template? name = some t ∧ (placed t site).Runs p n q ∧
        made = some n := by
  simp only [instantiate, runs_bind, runs_get]
  constructor
  · rintro ⟨a, r, ⟨rfl, rfl⟩, h⟩
    split at h
    · next t ht =>
        obtain ⟨n, hn, rfl⟩ := runs_map.mp h
        exact .inr ⟨t, n, ht, hn, rfl⟩
    · next ht => exact .inl ⟨ht, runs_pure.mp h⟩
  · rintro (⟨ht, hm⟩ | ⟨t, n, ht, hn, rfl⟩)
    · exact ⟨p, p, ⟨rfl, rfl⟩, by simpa only [ht] using runs_pure.mpr hm⟩
    · exact ⟨p, p, ⟨rfl, rfl⟩, by simpa only [ht] using runs_map.mpr ⟨n, hn, rfl⟩⟩

theorem runs_copies_succ {t : Template} {site : Site} {n : Nat} {made : List Node} :
    (copies t site (n + 1)).Runs p made q ↔
      ∃ first r rest, (placed t site).Runs p first r ∧ (copies t site n).Runs r rest q ∧
        made = first :: rest := by
  simp only [copies, runs_bind, runs_pure]
  constructor
  · rintro ⟨first, r, hf, rest, s, hr, rfl, rfl⟩
    exact ⟨first, r, rest, hf, hr, rfl⟩
  · rintro ⟨first, r, rest, hf, hr, rfl⟩
    exact ⟨first, r, hf, rest, q, hr, rfl, rfl⟩

/-- Copying touches the counter only, and gives copies. -/
theorem runs_copies {t : Template} {site : Site} {count : Nat} {made : List Node}
    (h : (copies t site count).Runs p made q) :
    (∃ last, q = { p with lastId := last }) ∧ ∀ n ∈ made, ∃ last, n = (t.place site last).1 := by
  induction count generalizing p made with
  | zero =>
      obtain ⟨rfl, rfl⟩ := runs_pure.mp h
      exact ⟨⟨_, rfl⟩, fun _ hn => absurd hn List.not_mem_nil⟩
  | succ count ih =>
      obtain ⟨first, r, rest, hf, hr, rfl⟩ := runs_copies_succ.mp h
      obtain ⟨rfl, rfl⟩ := runs_placed.mp hf
      obtain ⟨⟨last, rfl⟩, hrest⟩ := ih hr
      refine ⟨⟨last, rfl⟩, fun n hn => ?_⟩
      rcases List.mem_cons.mp hn with rfl | hn
      · exact ⟨_, rfl⟩
      · exact hrest n hn

/-- A property of runs over a list, from one of no step and one of a step before
the others. -/
theorem runs_mapM {f : α → Build β} {R : Progress → List β → Progress → Prop} {xs : List α}
    (nil : ∀ p, R p [] p)
    (cons : ∀ x ∈ xs, ∀ p y r ys q, (f x).Runs p y r → R r ys q → R p (y :: ys) q) {ys : List β}
    (h : (xs.mapM f).Runs p ys q) : R p ys q := by
  induction xs generalizing p ys with
  | nil =>
      rw [List.mapM_nil, runs_pure] at h
      obtain ⟨rfl, rfl⟩ := h
      exact nil _
  | cons x xs ih =>
      simp only [List.mapM_cons, runs_bind, runs_pure] at h
      obtain ⟨y, r, hy, ys, s, hys, rfl, rfl⟩ := h
      have hrest := ih (fun x hx => cons x (List.mem_cons_of_mem _ hx)) hys
      exact cons x List.mem_cons_self p y r ys _ hy hrest

theorem runs_mapM_append {f : α → Build β} {xs more : List α} {ys : List β}
    (h : ((xs ++ more).mapM f).Runs p ys q) :
    ∃ ys' rest r, ys = ys' ++ rest ∧ (xs.mapM f).Runs p ys' r ∧ (more.mapM f).Runs r rest q := by
  rw [List.mapM_append, runs_bind] at h
  obtain ⟨ys', r, hys', h⟩ := h
  simp only [runs_bind, runs_pure] at h
  obtain ⟨rest, s, hrest, rfl, rfl⟩ := h
  exact ⟨ys', rest, r, rfl, hys', hrest⟩

theorem runs_mapM_cons {f : α → Build β} {x : α} {xs : List α} {ys : List β} :
    ((x :: xs).mapM f).Runs p ys q ↔ ∃ y r rest, (f x).Runs p y r ∧ (xs.mapM f).Runs r rest q ∧
      ys = y :: rest := by
  simp only [List.mapM_cons, runs_bind, runs_pure]
  constructor
  · rintro ⟨y, r, hy, rest, s, hrest, rfl, rfl⟩
    exact ⟨y, r, rest, hy, hrest, rfl⟩
  · rintro ⟨y, r, rest, hy, hrest, rfl⟩
    exact ⟨y, r, hy, rest, q, hrest, rfl, rfl⟩

/-- What a run over a list gives for one of its entries comes of a run between two others. -/
theorem runs_mapM_mem {f : α → Build β} {xs : List α} {y : β} {ys : List β}
    (h : (xs.mapM f).Runs p ys q) (hy : y ∈ ys) :
    ∃ before x after ys' rest r s, xs = before ++ x :: after ∧ ys = ys' ++ y :: rest ∧
      (before.mapM f).Runs p ys' r ∧ (f x).Runs r y s ∧ (after.mapM f).Runs s rest q := by
  induction xs generalizing p ys with
  | nil =>
      rw [List.mapM_nil, runs_pure] at h
      rw [h.1] at hy
      cases hy
  | cons x xs ih =>
      obtain ⟨first, r, rest, hfirst, hrest, rfl⟩ := runs_mapM_cons.mp h
      rcases List.mem_cons.mp hy with rfl | hy
      · exact ⟨[], x, xs, [], rest, p, r, rfl, rfl, runs_pure.mpr ⟨rfl, rfl⟩, hfirst, hrest⟩
      · obtain ⟨before, x', after, ys', rest', r', s, rfl, rfl, hbefore, hx, hafter⟩ := ih hrest hy
        exact ⟨x :: before, x', after, first :: ys', rest', r', s, rfl, rfl,
          runs_mapM_cons.mpr ⟨first, r, ys', hfirst, hbefore, rfl⟩, hx, hafter⟩

end Build

namespace Generate

open Build

variable {ctx : Setup} {build : Builder} {r : Request} {p q : Progress}

/-! ## Objects -/

theorem runs_markRequired {required : Bool} {nodes made : List Node}
    (h : (markRequired required nodes).Runs p made q) :
    (made = nodes ∧ q = p) ∨
      (made = nodes.map (·.modify (·.setOption "required" (.bool true))) ∧
        q = { p with fieldsRequired := true }) := by
  simp only [markRequired] at h
  split at h
  · obtain ⟨_, s, hs, hm⟩ := runs_bind.mp h
    obtain ⟨rfl, rfl⟩ := runs_pure.mp hm
    exact .inr ⟨rfl, runs_noteRequired.mp hs⟩
  · exact .inl (runs_pure.mp h)

/-- The request for the node of a property. -/
def propertyRequest (r : Request) (layoutPointer name : String) : Request :=
  r.within layoutPointer (Pointer.child (r.schemaPointer ++ "/properties") name)
    (Pointer.child r.dataPointer name)

theorem runs_buildProperty {schema : Json} {layoutPointer name : String} {made : List Node}
    (h : (buildProperty build r schema layoutPointer name).Runs p made q) :
    ∃ mapped s required, (build (propertyRequest r layoutPointer name)).Runs p mapped s ∧
      (markRequired required mapped.toList).Runs s made q := by
  simp only [buildProperty, runs_bind] at h
  obtain ⟨mapped, s, hb, hm⟩ := h
  exact ⟨mapped, s, _, hb, hm⟩

/-- The layout pointer of what an object contains. -/
def childLayout (r : Request) (layoutPointer : String) : String :=
  Pointer.anyItem (if r.isRoot then "" else layoutPointer ++ "/items")

theorem runs_buildProperties {schema : Json} {layoutPointer : String} {made : List Node}
    (h : (buildProperties build r schema layoutPointer).Runs p made q) :
    (made = [] ∧ q = p) ∨
      ∃ (properties : Members) (parts : List (List Node)),
        (schema.get? "properties").bind Json.obj? = some properties ∧
        ((propertyNames schema properties).mapM
          (buildProperty build r schema (childLayout r layoutPointer))).Runs p parts q ∧
        made = parts.flatten := by
  simp only [buildProperties] at h
  split at h
  · exact .inl (runs_pure.mp h)
  · next properties hproperties =>
      simp only [runs_bind, runs_pure] at h
      obtain ⟨parts, s, hp, rfl, rfl⟩ := h
      exact .inr ⟨properties, parts, hproperties, hp, rfl⟩

/-! ## Templates -/

/-- The node of a template as it is stored. -/
def storedNode (relative : Bool) (n : Node) : Node :=
  if relative then n.modify ({ · with recursive := true }) else n

/-- The library after the build of a template has given these nodes. -/
def settled (l : Library) (name : String) (relative : Bool) (made : List Node) : Library :=
  match made.getLast? with
  | some n => l.store name (Template.of (storedNode relative n) relative)
  | none => l.remove name

/-- A template is built once, with its name reserved meanwhile. -/
theorem runs_ensureTemplate {name : String} {relative : Bool} {u : Unit}
    (h : (ensureTemplate build name relative r).Runs p u q) :
    (p.templates.knows name = true ∧ q = p) ∨
      (p.templates.knows name = false ∧
        ∃ mapped s, (build r).Runs { p with templates := p.templates.reserve name } mapped s ∧
          q = { s with templates := settled s.templates name relative mapped.toList }) := by
  simp only [ensureTemplate, runs_bind, runs_get] at h
  obtain ⟨_, _, ⟨rfl, rfl⟩, h⟩ := h
  split at h
  · next hk => exact .inl ⟨hk, (runs_pure.mp h).2⟩
  · next hk =>
      simp only [runs_bind, runs_onTemplates] at h
      obtain ⟨_, _, rfl, mapped, s, hb, h⟩ := h
      refine .inr ⟨by simpa using hk, mapped, s, hb, ?_⟩
      cases hl : mapped.toList.getLast? with
      | none => simpa only [hl, settled, runs_onTemplates] using h
      | some n => simpa only [hl, settled, storedNode, runs_onTemplates] using h

/-! ## Arrays -/

/-- The request for a fixed position that is built in place. -/
def tupleRequest (r : Request) (site : ArraySite) (index : Nat) : Request :=
  { r.within site.layout (Pointer.item (r.schemaPointer ++ "/items") index)
      (Pointer.item site.array index) with
    kind := some .tuple, removable := false }

theorem runs_buildTupleItem {site : ArraySite} {bounds : ArrayBounds} {removable : Bool}
    {index : Nat} {made : Option Node}
    (h : (buildTupleItem build r site bounds removable index).Runs p made q) :
    (∃ s u, (ensureTemplate build (tupleName site index) site.relative
          (itemTemplate r site .tuple true (Pointer.item (r.schemaPointer ++ "/items") index)
            (Pointer.item site.array index))).Runs p u s ∧
        (instantiate (tupleName site index)
          ⟨Pointer.item site.array index, site.layout⟩).Runs s made q) ∨
      ∃ mapped, (build (tupleRequest r site index)).Runs p mapped q ∧
        made = mapped.toList.getLast? := by
  simp only [buildTupleItem] at h
  split at h
  · obtain ⟨u, s, he, hi⟩ := runs_bind.mp h
    exact .inl ⟨s, u, he, hi⟩
  · simp only [runs_bind, runs_pure] at h
    obtain ⟨mapped, s, hb, rfl, rfl⟩ := h
    exact .inr ⟨mapped, hb, rfl⟩

theorem runs_buildTuple {site : ArraySite} {schema : Json} {bounds : ArrayBounds}
    {removable : Bool} {made : List Node}
    (h : (buildTuple build r site schema bounds removable).Runs p made q) :
    (made = [] ∧ q = p) ∨
      ∃ (tuple : List Json) (parts : List (Option Node)),
        (schema.get? "items").bind Json.arr? = some tuple ∧
        ((List.range (min bounds.tupleItems tuple.length)).mapM
          (buildTupleItem build r site bounds removable)).Runs p parts q ∧
        made = parts.filterMap id := by
  simp only [buildTuple] at h
  split at h
  · exact .inl (runs_pure.mp h)
  · next tuple htuple =>
      simp only [runs_bind, runs_pure] at h
      obtain ⟨parts, s, hp, rfl, rfl⟩ := h
      exact .inr ⟨tuple, parts, htuple, hp, rfl⟩

theorem runs_fillItems {name : String} {site : Site} {count : Nat} {items made : List Node}
    (h : (fillItems name site count items).Runs p made q) :
    (made = items ∧ q = p) ∨
      ∃ t more, p.templates.template? name = some t ∧
        (copies t site (count - items.length)).Runs p more q ∧ made = items ++ more := by
  simp only [fillItems, runs_bind, runs_get] at h
  obtain ⟨_, _, ⟨rfl, rfl⟩, h⟩ := h
  split at h
  · next t ht =>
      simp only [runs_bind, runs_pure] at h
      obtain ⟨more, s, hm, rfl, rfl⟩ := h
      exact .inr ⟨t, more, ht, hm, rfl⟩
  · exact .inl (runs_pure.mp h)

theorem runs_withAddControl {site : ArraySite} {schema : Json} {c : Control}
    {bounds : ArrayBounds} {items made : List Node}
    (h : (withAddControl ctx site schema c bounds items).Runs p made q) :
    (made = limitLast bounds items ∧ q = p) ∨
      ∃ label,
        made = items ++
          [addControl ctx c site.name site.relative label bounds (p.lastId + 1)] ∧
        q = { p with lastId := p.lastId + 1 } := by
  simp only [withAddControl] at h
  split at h
  · simp only [runs_bind, runs_get, runs_newId, runs_pure] at h
    obtain ⟨_, _, ⟨rfl, rfl⟩, _, _, ⟨rfl, rfl⟩, rfl, rfl⟩ := h
    exact .inr ⟨_, rfl, rfl⟩
  · exact .inl (runs_pure.mp h)

/-- The request for the template of an array's list items. -/
def listRequest (ctx : Setup) (r : Request) (site : ArraySite) (c : Control) (keyword : String) :
    Request :=
  itemTemplate r site .list (c.flag "removable" true)
    (ctx.schemaKey (r.schemaPointer ++ "/" ++ keyword)) (Pointer.anyItem site.array)

theorem runs_buildList {site : ArraySite} {schema : Json} {c : Control} {bounds : ArrayBounds}
    {keyword : String} {items made : List Node}
    (h : (buildList ctx build r site schema c bounds keyword items).Runs p made q) :
    ∃ s s' filled count u,
      (ensureTemplate build site.name site.relative (listRequest ctx r site c keyword)).Runs
        p u s ∧
      (fillItems site.name ⟨Pointer.anyItem site.array, site.layout⟩ count items).Runs
        s filled s' ∧
      (withAddControl ctx site schema c bounds filled).Runs s' made q := by
  simp only [buildList, runs_bind] at h
  obtain ⟨u, s, he, filled, s', hf, ha⟩ := h
  exact ⟨s, s', filled, _, u, he, hf, ha⟩

/-- The bounds of a generated array control. -/
def boundsFor (ctx : Setup) (r : Request) (schema : Json) (c : Control) : ArrayBounds :=
  ArrayBounds.of .words schema c.options ctx.options.maxItemsCap
    (Schema.isRequired ctx.schema r.schemaPointer)

/-- The control of an array with its bounds among its options. -/
def boundedControl (ctx : Setup) (r : Request) (schema : Json) (c : Control) : Control :=
  { c with options := (boundsFor ctx r schema c).writeOptions c.options }

theorem runs_buildArray {schema : Json} {c : Control} {n : Node}
    (h : (buildArray ctx build r schema c).Runs p n q) :
    ∃ site items made s,
      site = arraySite ctx r (boundedControl ctx r schema c) ∧
      (buildTuple build r site schema (boundsFor ctx r schema c)
        ((boundedControl ctx r schema c).flag "removable" true)).Runs p items s ∧
      n = .mk (boundedControl ctx r schema c) made ∧
      ∃ s', s' = { s with
          dataMap := s.dataMap.update ((Pointer.listOfItem? site.name).getD site.name)
            (DataEntry.withBounds (boundsFor ctx r schema c)) } ∧
        ((listKeyword? schema = none ∧ made = items ∧ q = s') ∨
          ∃ keyword, listKeyword? schema = some keyword ∧
            (buildList ctx build r site schema (boundedControl ctx r schema c)
              (boundsFor ctx r schema c) keyword items).Runs s' made q) := by
  simp only [buildArray, runs_bind, runs_note] at h
  obtain ⟨items, s, ht, _, s', hs', h⟩ := h
  split at h
  · next hk =>
      obtain ⟨rfl, rfl⟩ := runs_pure.mp h
      exact ⟨_, items, items, s, rfl, ht, rfl, _, hs', .inl ⟨hk, rfl, rfl⟩⟩
  · next keyword hk =>
      simp only [runs_bind, runs_pure] at h
      obtain ⟨made, s'', hl, rfl, rfl⟩ := h
      exact ⟨_, items, made, s, rfl, ht, rfl, _, hs', .inr ⟨keyword, hk, hl⟩⟩

/-! ## References -/

/-- The request for the template of a reference's target. -/
def targetRequest (ctx : Setup) (r : Request) (c : Control) : Request :=
  { schemaPointer := ctx.schemaKey r.schemaPointer
    kind := if c.arrayItem then c.itemKind else none
    inTemplate := true
    above := r.fullPointer }

theorem runs_buildReference {c made : Control}
    (h : (buildReference ctx build r c).Runs p made q) :
    made = referenceControl ctx r c (ctx.dataKey r.fullPointer) ∧
      ∃ u, (ensureTemplate build (ctx.dataKey r.fullPointer) true
        (targetRequest ctx r made)).Runs p u q := by
  simp only [buildReference, runs_bind, runs_pure] at h
  obtain ⟨u, s, he, rfl, rfl⟩ := h
  exact ⟨rfl, u, he⟩

/-! ## Nodes -/

/-- How a control becomes a node, by the type of its data. -/
theorem runs_complete {schema : Json} {c : Control} {mapped : Mapped Node}
    (h : (complete ctx build r schema c).Runs p mapped q) :
    (c.dataType = some "object" ∧ ∃ children,
        (buildProperties build r schema c.layoutPointer).Runs p children q ∧
        mapped = if r.isRoot then .many children else .one (.mk c children)) ∨
      ((c.dataType = some "array" → c.type.startsWith "checkboxes" = true) ∧
        ∃ options, mapped = .one (.mk { c with options } []) ∧ q = p) ∨
      (c.dataType = some "array" ∧ ∃ n, (buildArray ctx build r schema c).Runs p n q ∧
        mapped = .one n) ∨
      (c.dataType = some "$ref" ∧ ∃ made, (buildReference ctx build r c).Runs p made q ∧
        mapped = .one (.mk made [])) := by
  simp only [complete] at h
  split at h
  · next ht =>
      simp only [runs_bind, runs_pure] at h
      obtain ⟨children, s, hc, rfl, rfl⟩ := h
      exact .inl ⟨ht, children, hc, rfl⟩
  · next ht =>
      split at h
      · next hboxes =>
          refine .inr (.inl ⟨fun _ => hboxes, ?_⟩)
          split at h
          · exact ⟨_, runs_pure.mp h⟩
          · exact ⟨c.options, runs_pure.mp h⟩
      · simp only [runs_bind, runs_pure] at h
        obtain ⟨n, s, hn, rfl, rfl⟩ := h
        exact .inr (.inr (.inl ⟨ht, n, hn, rfl⟩))
  · next ht =>
      simp only [runs_bind, runs_pure] at h
      obtain ⟨made, s, hm, rfl, rfl⟩ := h
      exact .inr (.inr (.inr ⟨ht, made, hm, rfl⟩))
  · next harray _ =>
      exact .inr (.inl ⟨fun ht => absurd ht harray, c.options, runs_pure.mp h⟩)

/-- The data map after the entry of a control has been noted; a template and the
form as a whole have none. -/
def noted (ctx : Setup) (r : Request) (schema : Json) (c : Control) (m : DataMap) : DataMap :=
  if r.dataPointer ≠ "" && !r.inTemplate then
    m.update (ctx.dataKey (c.dataPointer.getD "")) (entryFor r schema c)
  else m

theorem runs_buildSchema {schema : Json} {type : String} {mapped : Mapped Node}
    (h : (buildSchema ctx build r schema type).Runs p mapped q) :
    ∃ id s, ((r.inTemplate = true ∧ id = none ∧ s = p) ∨
        (r.inTemplate = false ∧ id = some (p.lastId + 1) ∧
          s = { p with lastId := p.lastId + 1 })) ∧
      (complete ctx build r schema (controlFor ctx r schema type id)).Runs
        { s with dataMap := noted ctx r schema (controlFor ctx r schema type id) s.dataMap }
        mapped q := by
  have rest : ∀ {id s},
      (do
        if r.dataPointer ≠ "" && !r.inTemplate then
          note (ctx.dataKey ((controlFor ctx r schema type id).dataPointer.getD ""))
            (entryFor r schema (controlFor ctx r schema type id))
        complete ctx build r schema (controlFor ctx r schema type id)).Runs s mapped q →
      (complete ctx build r schema (controlFor ctx r schema type id)).Runs
        { s with dataMap := noted ctx r schema (controlFor ctx r schema type id) s.dataMap }
        mapped q := by
    intro id s h
    unfold noted
    split at h
    · next hn =>
        simp only [runs_bind, runs_note] at h
        obtain ⟨_, _, rfl, hc⟩ := h
        rw [if_pos hn]
        exact hc
    · next hn =>
        rw [if_neg hn]
        simpa using h
  simp only [buildSchema] at h
  split at h
  · next ht =>
      obtain ⟨id, s, hid, h⟩ := runs_bind.mp h
      obtain ⟨rfl, rfl⟩ := runs_pure.mp hid
      exact ⟨none, s, .inl ⟨ht, rfl, rfl⟩, rest h⟩
  · next ht =>
      obtain ⟨id, s, hid, h⟩ := runs_bind.mp h
      obtain ⟨n, hn, rfl⟩ := runs_map.mp hid
      obtain ⟨rfl, rfl⟩ := runs_newId.mp hn
      exact ⟨_, _, .inr ⟨by simpa using ht, rfl, rfl⟩, rest h⟩

theorem runs_buildOne {mapped : Mapped Node} (h : (buildOne ctx build r).Runs p mapped q) :
    (mapped = .drop ∧ q = p) ∨
      ∃ schema type, ctx.resolved.schemaAt? r.schemaPointer = some schema ∧
        isDescribed schema = true ∧ Schema.controlType? schema [] = some type ∧
        (buildSchema ctx build r schema type).Runs p mapped q := by
  simp only [buildOne] at h
  split at h
  · exact .inl (runs_pure.mp h)
  · next schema hs =>
      obtain ⟨hs, hd⟩ := Option.filter_eq_some_iff.mp hs
      split at h
      · exact .inl (runs_pure.mp h)
      · next type ht => exact .inr ⟨schema, type, hs, hd, ht, h⟩

/-- A property of builders that holds of the one that never ends and that one
more level keeps holds at every depth. -/
theorem buildNode_induction {P : Builder → Prop} (none : P fun _ => failure)
    (level : ∀ build, P build → P (buildOne ctx build)) (fuel : Nat) : P (buildNode ctx fuel) := by
  induction fuel with
  | zero => exact none
  | succ fuel ih => exact level _ ih

/-- So it holds of the builder of whole layouts. -/
theorem run_induction {P : Builder → Prop} (none : P fun _ => failure)
    (level : ∀ build, P build → P (buildOne ctx build)) : P (run ctx) :=
  buildNode_induction none level _

end Generate

end SchemaForm
