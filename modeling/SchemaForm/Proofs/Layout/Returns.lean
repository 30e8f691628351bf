/-
Building that returns.

A template is built when its name is asked for and not known, and its name is known while it is
built.  So there is a bound on how deep requests nest where the names that may be asked for within
one another run out: `Within ctx depth known r` says that the depth is enough for the request when
the names are known already.  Then the builder returns (`Within.returns`), whatever has been built
before, and so does the expansion of a bound control (`expandBound_returns`).
-/
import SchemaForm.Proofs.Layout.Offers

namespace SchemaForm

namespace Build

variable {α β : Type} {known : List String} {m : Build α}

/-- Started where the names are known the computation ends, and what is known stays so. -/
def Returns (known : List String) (m : Build α) : Prop :=
  ∀ p, (∀ name ∈ known, p.templates.knows name = true) →
    ∃ a q, m.Runs p a q ∧ p.templates.Extends q.templates

/-- What leaves the templates alone returns if it ends. -/
theorem Returns.of_runs (h : ∀ p, ∃ a q, m.Runs p a q ∧ q.templates = p.templates) :
    Returns known m := by
  intro p _
  obtain ⟨a, q, hrun, hsame⟩ := h p
  exact ⟨a, q, hrun, hsame ▸ .refl _⟩

theorem Returns.pure (a : α) : Returns known (pure a : Build α) :=
  .of_runs fun p => ⟨a, p, runs_pure.mpr ⟨rfl, rfl⟩, rfl⟩

theorem Returns.bind {f : α → Build β} (hm : Returns known m) (hf : ∀ a, Returns known (f a)) :
    Returns known (m >>= f) := by
  intro p hp
  obtain ⟨a, s, ha, hs⟩ := hm p hp
  obtain ⟨b, q, hb, hq⟩ := hf a s fun name hname => Generate.knows_mono hs (hp name hname)
  exact ⟨b, q, runs_bind.mpr ⟨a, s, ha, hb⟩, hs.trans hq⟩

theorem Returns.map (hm : Returns known m) (f : α → β) : Returns known (f <$> m) := by
  rw [map_eq_pure_bind]
  exact hm.bind fun a => .pure (f a)

theorem returns_get : Returns known (get : Build Progress) :=
  .of_runs fun p => ⟨p, p, runs_get.mpr ⟨rfl, rfl⟩, rfl⟩

theorem returns_newId : Returns known newId :=
  .of_runs fun _ => ⟨_, _, runs_newId.mpr ⟨rfl, rfl⟩, rfl⟩

theorem returns_note (key : String) (f : DataEntry → DataEntry) : Returns known (note key f) :=
  .of_runs fun _ => ⟨(), _, runs_note.mpr rfl, rfl⟩

theorem returns_noteRequired : Returns known noteRequired :=
  .of_runs fun _ => ⟨(), _, runs_noteRequired.mpr rfl, rfl⟩

theorem returns_placed (t : Template) (site : Site) : Returns known (placed t site) :=
  .of_runs fun _ => ⟨_, _, runs_placed.mpr ⟨rfl, rfl⟩, rfl⟩

theorem returns_instantiate (name : String) (site : Site) :
    Returns known (instantiate name site) := by
  refine returns_get.bind fun p => ?_
  split
  · exact (returns_placed _ site).map some
  · exact .pure none

theorem returns_copies (t : Template) (site : Site) (count : Nat) :
    Returns known (copies t site count) := by
  induction count with
  | zero => exact .pure []
  | succ count ih => exact (returns_placed t site).bind fun _ => ih.bind fun _ => .pure _

theorem returns_mapM {f : α → Build β} {xs : List α} (h : ∀ x ∈ xs, Returns known (f x)) :
    Returns known (xs.mapM f) := by
  induction xs with
  | nil =>
      rw [List.mapM_nil]
      exact .pure []
  | cons x xs ih =>
      rw [List.mapM_cons]
      refine (h x List.mem_cons_self).bind fun _ => ?_
      exact (ih fun y hy => h y (List.mem_cons_of_mem x hy)).bind fun _ => .pure _

end Build

namespace Generate

open Build

variable {ctx : Setup} {known : List String} {build : Builder} {r r' : Request} {schema : Json}
  {c : Control} {name : String}

/-! ## What a request asks for -/

/-- The site of the items of the requested array, whose control is laid out at the pointer. -/
def siteAt (ctx : Setup) (r : Request) (layoutPointer : String) : ArraySite :=
  arraySite ctx r { layoutPointer }

/-- The second request is answered in place for the first one: for a property of its object, or
for a fixed position of its array. -/
inductive Request.Holds (ctx : Setup) (r : Request) : Request → Prop
  | property {schema : Json} {properties : Members} {name : String} (layoutPointer : String) :
      ctx.resolved.schemaAt? r.schemaPointer = some schema →
      (schema.get? "properties").bind Json.obj? = some properties →
      name ∈ propertyNames schema properties →
      Holds ctx r (propertyRequest r layoutPointer name)
  | fixed {schema : Json} {tuple : List Json} {index : Nat} (layoutPointer : String) :
      ctx.resolved.schemaAt? r.schemaPointer = some schema →
      (schema.get? "items").bind Json.arr? = some tuple → index < tuple.length →
      Holds ctx r (tupleRequest r (siteAt ctx r layoutPointer) index)

/-- For the first request the template of the name is asked for, which the second request is
for. -/
inductive Request.Asks (ctx : Setup) (r : Request) : String → Request → Prop
  | tuple {schema : Json} {tuple : List Json} {index : Nat} (layoutPointer : String) :
      ctx.resolved.schemaAt? r.schemaPointer = some schema →
      (schema.get? "items").bind Json.arr? = some tuple → index < tuple.length →
      Asks ctx r (tupleName (siteAt ctx r layoutPointer) index)
        (itemTemplate r (siteAt ctx r layoutPointer) .tuple true
          (Pointer.item (r.schemaPointer ++ "/items") index) (Pointer.item r.dataPointer index))
  | list {schema : Json} {keyword : String} (layoutPointer : String) (removable : Bool) :
      ctx.resolved.schemaAt? r.schemaPointer = some schema →
      listKeyword? schema = some keyword →
      Asks ctx r (siteAt ctx r layoutPointer).name
        (itemTemplate r (siteAt ctx r layoutPointer) .list removable
          (ctx.schemaKey (r.schemaPointer ++ "/" ++ keyword)) (Pointer.anyItem r.dataPointer))
  | target {schema : Json} (c : Control) :
      ctx.resolved.schemaAt? r.schemaPointer = some schema →
      dataType? schema = some "$ref" →
      Asks ctx r (ctx.dataKey r.fullPointer) (targetRequest ctx r c)

/-- Requests nest at most this deep, if the names are known. -/
def Within (ctx : Setup) : Nat → List String → Request → Prop
  | 0, _, _ => False
  | depth + 1, known, r =>
      (∀ r', r.Holds ctx r' → Within ctx depth known r') ∧
        ∀ name r', r.Asks ctx name r' → name ∈ known ∨ Within ctx depth (name :: known) r'

/-- The builder returns for all that a request asks for. -/
structure Served (ctx : Setup) (known : List String) (build : Builder) (r : Request) : Prop where
  held : ∀ r', r.Holds ctx r' → Returns known (build r')
  asked : ∀ name r', r.Asks ctx name r' → name ∈ known ∨ Returns (name :: known) (build r')

/-! ## Objects -/

theorem markRequired_returns (required : Bool) (nodes : List Node) :
    Returns known (markRequired required nodes) := by
  unfold markRequired
  split
  · exact returns_noteRequired.bind fun _ => .pure _
  · exact .pure nodes

theorem buildProperties_returns (h : Served ctx known build r)
    (hschema : ctx.resolved.schemaAt? r.schemaPointer = some schema) (layoutPointer : String) :
    Returns known (buildProperties build r schema layoutPointer) := by
  unfold buildProperties
  split
  · exact .pure []
  · next properties hproperties =>
      refine .bind (returns_mapM fun name hname => ?_) fun _ => .pure _
      refine .bind (h.held _ (.property _ hschema hproperties hname)) fun _ => ?_
      exact markRequired_returns _ _

/-! ## Templates -/

/-- A name that is not known is known while its template is built. -/
theorem ensureTemplate_returns (h : name ∈ known ∨ Returns (name :: known) (build r))
    (relative : Bool) : Returns known (ensureTemplate build name relative r) := by
  intro p hp
  cases hk : p.templates.knows name with
  | true =>
      refine ⟨(), p, ?_, .refl _⟩
      simp only [ensureTemplate, runs_bind, runs_get]
      refine ⟨p, p, ⟨rfl, rfl⟩, ?_⟩
      rw [if_pos hk]
      exact runs_pure.mpr ⟨rfl, rfl⟩
  | false =>
      have hbuild := h.resolve_left fun hname => Bool.false_ne_true (hk.symm.trans (hp name hname))
      have hreserved := Library.Extends.reserve hk
      have hself : (p.templates.reserve name).knows name = true := by
        rw [Library.knows, Table.has, Library.reserve, Table.get?_insert, if_pos rfl]
        rfl
      obtain ⟨mapped, s, hrun, hs⟩ := hbuild { p with templates := p.templates.reserve name } <| by
        intro other hother
        rcases List.mem_cons.mp hother with rfl | hother
        · exact hself
        · exact knows_mono hreserved (hp other hother)
      have hsettled := (Library.extends_settled hk hs relative mapped.toList).1
      refine ⟨(), { s with templates := settled s.templates name relative mapped.toList }, ?_,
        hsettled⟩
      simp only [ensureTemplate, runs_bind, runs_get]
      refine ⟨p, p, ⟨rfl, rfl⟩, ?_⟩
      rw [if_neg (by rw [hk]; exact Bool.false_ne_true)]
      simp only [runs_bind, runs_onTemplates]
      refine ⟨(), _, rfl, mapped, s, hrun, ?_⟩
      unfold settled
      cases mapped.toList.getLast? with
      | none => exact runs_onTemplates.mpr rfl
      | some n => exact runs_onTemplates.mpr rfl

/-! ## Arrays -/

variable {bounds : ArrayBounds} {layoutPointer : String}

theorem buildTuple_returns (h : Served ctx known build r)
    (hschema : ctx.resolved.schemaAt? r.schemaPointer = some schema) (removable : Bool) :
    Returns known (buildTuple build r (siteAt ctx r layoutPointer) schema bounds removable) := by
  unfold buildTuple
  split
  · exact .pure []
  · next tuple htuple =>
      refine .bind (returns_mapM fun index hindex => ?_) fun _ => .pure _
      have hlt : index < tuple.length :=
        Nat.lt_of_lt_of_le (List.mem_range.mp hindex) (Nat.min_le_right _ _)
      unfold buildTupleItem
      dsimp only
      split
      · have hasked := h.asked _ _ (.tuple layoutPointer hschema htuple hlt)
        exact (ensureTemplate_returns hasked _).bind fun _ => returns_instantiate _ _
      · exact .bind (h.held _ (.fixed layoutPointer hschema htuple hlt)) fun _ => .pure _

theorem fillItems_returns (name : String) (site : Site) (count : Nat) (items : List Node) :
    Returns known (fillItems name site count items) := by
  refine returns_get.bind fun p => ?_
  split
  · exact (returns_copies _ site _).bind fun _ => .pure _
  · exact .pure items

theorem withAddControl_returns (site : ArraySite) (schema : Json) (c : Control)
    (bounds : ArrayBounds) (items : List Node) :
    Returns known (withAddControl ctx site schema c bounds items) := by
  unfold withAddControl
  split
  · exact returns_get.bind fun _ => returns_newId.bind fun _ => .pure _
  · exact .pure _

theorem buildList_returns (h : Served ctx known build r)
    (hschema : ctx.resolved.schemaAt? r.schemaPointer = some schema) {keyword : String}
    (hkeyword : listKeyword? schema = some keyword) (c : Control) (items : List Node) :
    Returns known
      (buildList ctx build r (siteAt ctx r layoutPointer) schema c bounds keyword items) := by
  have hasked := h.asked _ _ (.list layoutPointer (c.flag "removable" true) hschema hkeyword)
  refine (ensureTemplate_returns hasked _).bind fun _ => ?_
  exact (fillItems_returns _ _ _ _).bind fun _ => withAddControl_returns _ _ _ _ _

theorem buildArray_returns (h : Served ctx known build r)
    (hschema : ctx.resolved.schemaAt? r.schemaPointer = some schema) (c : Control) :
    Returns known (buildArray ctx build r schema c) := by
  unfold buildArray
  refine .bind (buildTuple_returns h hschema _) fun items => .bind (returns_note _ _) fun _ => ?_
  split
  · exact .pure _
  · next keyword hkeyword =>
      exact .bind (buildList_returns h hschema hkeyword _ items) fun _ => .pure _

/-! ## Nodes -/

theorem buildReference_returns (h : Served ctx known build r)
    (hschema : ctx.resolved.schemaAt? r.schemaPointer = some schema)
    (htype : dataType? schema = some "$ref") (c : Control) :
    Returns known (buildReference ctx build r c) := by
  have hasked := h.asked _ _ (.target (referenceControl ctx r c (ctx.dataKey r.fullPointer))
    hschema htype)
  exact (ensureTemplate_returns hasked true).bind fun _ => .pure _

theorem complete_returns (h : Served ctx known build r)
    (hschema : ctx.resolved.schemaAt? r.schemaPointer = some schema)
    (hc : c.dataType = dataType? schema) : Returns known (complete ctx build r schema c) := by
  unfold complete
  split
  · exact (buildProperties_returns h hschema _).bind fun _ => .pure _
  · split
    · split <;> exact .pure _
    · exact (buildArray_returns h hschema c).bind fun _ => .pure _
  · next htype =>
      exact (buildReference_returns h hschema (hc.symm.trans htype) c).bind fun _ => .pure _
  · exact .pure _

theorem buildOne_returns (h : Served ctx known build r) : Returns known (buildOne ctx build r) := by
  unfold buildOne
  split
  · exact .pure _
  · next schema hs =>
      obtain ⟨hschema, hdescribed⟩ := Option.filter_eq_some_iff.mp hs
      split
      · exact .pure _
      · next type htype =>
          have hcomplete : ∀ id, Returns known
              (complete ctx build r schema (controlFor ctx r schema type id)) := by
            intro id
            obtain ⟨schema', hschema', -, -, hdata⟩ := controlFor_isOf hschema hdescribed htype id
            obtain rfl := Option.some.inj (hschema'.symm.trans hschema)
            exact complete_returns h hschema hdata
          have hnoted : ∀ id, Returns known (do
              if r.dataPointer ≠ "" && !r.inTemplate then
                note (ctx.dataKey ((controlFor ctx r schema type id).dataPointer.getD ""))
                  (entryFor r schema (controlFor ctx r schema type id))
              complete ctx build r schema (controlFor ctx r schema type id)) := by
            intro id
            split
            · exact (returns_note _ _).bind fun _ => hcomplete id
            · exact (Returns.pure ()).bind fun _ => hcomplete id
          simp only [buildSchema]
          split
          · exact (Returns.pure none).bind hnoted
          · exact (returns_newId.map some).bind hnoted

/-- **Building returns** within the depth. -/
theorem Within.returns {depth : Nat} (h : Within ctx depth known r) :
    Returns known (buildNode ctx depth r) := by
  induction depth generalizing known r with
  | zero => exact h.elim
  | succ depth ih =>
      obtain ⟨hheld, hasked⟩ := h
      refine buildOne_returns ⟨fun r' hr' => ih (hheld r' hr'), fun name r' hr' => ?_⟩
      exact (hasked name r' hr').imp_right ih

/-- The contents of a bound control are within one more level. -/
theorem expandBound_returns {schemaPointer : String}
    (h : Within ctx (depthLimit ctx + 1) [] (boundRequest schemaPointer c))
    (hc : ∀ schema, ctx.resolved.schemaAt? schemaPointer = some schema →
      c.dataType = dataType? schema) : Returns [] (expandBound ctx schemaPointer c) := by
  obtain ⟨hheld, hasked⟩ := h
  have hserved : Served ctx [] (run ctx) (boundRequest schemaPointer c) :=
    ⟨fun r' hr' => (hheld r' hr').returns, fun name r' hr' => (hasked name r' hr').imp_right
      Within.returns⟩
  unfold expandBound
  split
  · exact .pure _
  · next schema hschema =>
      dsimp only
      split
      · split
        · exact .pure _
        · exact (buildProperties_returns hserved hschema _).bind fun _ => .pure _
      · split
        · exact .pure _
        · exact buildArray_returns hserved hschema c
      · next htype =>
          have hdata := (hc schema hschema).symm.trans htype
          exact (buildReference_returns hserved hschema hdata c).bind fun _ => .pure _
      · exact .pure _

end Generate

end SchemaForm
