/-
How generated nodes come about.

`Derives ctx S F q goal n` says that the node `n` is one that a build can give for the
goal: for a request, for a property of the object of a request, or for an item of the
array of a request.  There is one constructor for each way, so that a property of
generated layouts is an induction with as many cases and needs no runs:

    leaf, object, array, reference       the node of a request
    property, required                   the nodes of an object
    fixed, copy, given, add, limited     the items of an array

The node of a copied template is derived itself, for the request that was made for the
template of the name, or the template is one that was in the library before under the name
(`F`).  `S` are the requests that the
build started from.  The progress `q` is one at which the build has arrived: what is
stored and recorded at it stays so, and derivations stay with it (`Derives.mono`).

The walk at the end covers the builder: what a run gives is derived (`derives_run`).
-/
import SchemaForm.Proofs.Layout.Composed
import SchemaForm.Proofs.Layout.Library
import SchemaForm.Proofs.Layout.Requests

namespace SchemaForm

open Build

/-! ## What stays -/

/-- The recorded bounds of an array. -/
def DataMap.bounds? (m : DataMap) (key : String) : Option ArrayBounds :=
  (Table.get? m key).bind DataEntry.bounds

/-- Recorded bounds are the same in the second data map. -/
def DataMap.Keeps (m m' : DataMap) : Prop :=
  ∀ key b, m.bounds? key = some b → m'.bounds? key = some b

/-- Stored templates and recorded bounds are the same at the second progress. -/
structure Progress.Keeps (p q : Progress) : Prop where
  templates : p.templates.Keeps q.templates
  dataMap : p.dataMap.Keeps q.dataMap

theorem DataMap.bounds?_update (m : DataMap) (key : String) (f : DataEntry → DataEntry)
    (other : String) :
    (m.update key f).bounds? other =
      if key = other then (f ((Table.get? m key).getD {})).bounds else m.bounds? other := by
  rw [bounds?, update, Table.get?_modify]
  split <;> rfl

/-- An entry that is changed keeps the bounds that it has. -/
theorem DataMap.keeps_update (m : DataMap) (key : String) {f : DataEntry → DataEntry}
    (hf : ∀ e b, e.bounds = some b → (f e).bounds = some b) : m.Keeps (m.update key f) := by
  intro other b hb
  rw [bounds?_update]
  split
  · next he =>
      subst he
      unfold bounds? at hb
      cases hget : Table.get? m key with
      | none =>
          rw [hget] at hb
          cases hb
      | some e =>
          rw [hget] at hb
          exact hf e b hb
  · exact hb

theorem DataMap.Keeps.refl (m : DataMap) : m.Keeps m := fun _ _ h => h

theorem DataMap.Keeps.trans {m m' m'' : DataMap} (h : m.Keeps m') (h' : m'.Keeps m'') :
    m.Keeps m'' :=
  fun key b hb => h' key b (h key b hb)

namespace Generate

/-! ## Derivations -/

/-- What a node is generated for. -/
inductive Goal where
  | request (r : Request)
  /-- A property of the object that is requested. -/
  | property (r : Request)
  /-- An item of the array that is requested, which has the given control. -/
  | item (r : Request) (array : Control)

/-- The schema and the control of a request that comes up. -/
structure Answers (ctx : Setup) (S : Request → Prop) (r : Request) (schema : Json)
    (c : Control) : Prop where
  comes : Comes ctx S r
  found : ctx.resolved.schemaAt? r.schemaPointer = some schema
  control : ∃ type id, Schema.controlType? schema [] = some type ∧
    c = controlFor ctx r schema type id

/-- The key under which the bounds of the requested array are recorded. -/
def boundsKey (ctx : Setup) (r : Request) : String :=
  (Pointer.listOfItem? (itemSite ctx r).name).getD (itemSite ctx r).name

/-- The limits of its array, told to a last item. -/
def withLimits (bounds : ArrayBounds) (c : Control) : Control :=
  (c.setOption "maxItems" (Json.nat bounds.maxItems)).setOption "minItems"
    (Json.nat bounds.minItems)

/-- A build can give the node for the goal. -/
inductive Derives (ctx : Setup) (S : Request → Prop) (F : String → Template → Prop)
    (q : Progress) : Goal → Node → Prop
  | leaf {r : Request} {schema : Json} {c : Control} (options : Members) :
      Answers ctx S r schema c →
      (c.dataType = some "array" → c.type.startsWith "checkboxes" = true) →
      Derives ctx S F q (.request r) (.mk { c with options } [])
  | object {r : Request} {schema : Json} {c : Control} {children : List Node} :
      Answers ctx S r schema c → c.dataType = some "object" → r.isRoot = false →
      (∀ n ∈ children, Derives ctx S F q (.property r) n) →
      Derives ctx S F q (.request r) (.mk c children)
  | array {r : Request} {schema : Json} {c : Control} {items : List Node} :
      Answers ctx S r schema c → c.dataType = some "array" →
      (q.dataMap.bounds? (boundsKey ctx r)).isSome = true →
      (∀ n ∈ items, Derives ctx S F q (.item r (boundedControl ctx r schema c)) n) →
      Derives ctx S F q (.request r) (.mk (boundedControl ctx r schema c) items)
  | reference {r : Request} {schema : Json} {c : Control} :
      Answers ctx S r schema c → c.dataType = some "$ref" →
      Derives ctx S F q (.request r)
        (.mk (referenceControl ctx r c (ctx.dataKey r.fullPointer)) [])
  | property {r : Request} {name : String} {n : Node} :
      Derives ctx S F q (.request (propertyRequest r (childLayout r r.layout) name)) n →
      Derives ctx S F q (.property r) n
  | required {r : Request} {n : Node} : Derives ctx S F q (.property r) n →
      Derives ctx S F q (.property r) (n.modify (·.setOption "required" (.bool true)))
  | fixed {r : Request} {array : Control} {index : Nat} {n : Node} :
      Derives ctx S F q (.request (tupleRequest r (itemSite ctx r) index)) n →
      Derives ctx S F q (.item r array) n
  | copy {r r' : Request} {array : Control} {name item : String} {relative : Bool} {n : Node}
      (last : Nat) :
      q.templates.template? name = some (Template.of (storedNode relative n) relative) →
      TemplateFor ctx S name relative r' → Derives ctx S F q (.request r') n →
      Takes ctx r name item →
      Derives ctx S F q (.item r array) ((Template.of (storedNode relative n) relative).place
        ⟨item, (itemSite ctx r).layout⟩ last).1
  | given {r : Request} {array : Control} {name item : String} {t : Template} (last : Nat) :
      q.templates.template? name = some t → F name t → Takes ctx r name item →
      Derives ctx S F q (.item r array) (t.place ⟨item, (itemSite ctx r).layout⟩ last).1
  | add {r : Request} {array : Control} (label : String) (bounds : ArrayBounds) (id : Nat) :
      Derives ctx S F q (.item r array)
        (addControl ctx array (itemSite ctx r).name (itemSite ctx r).relative label bounds id)
  | limited {r : Request} {array : Control} {n : Node} (bounds : ArrayBounds) :
      Derives ctx S F q (.item r array) n → n.control.isReference = true →
      Derives ctx S F q (.item r array) (n.modify (withLimits bounds))

variable {ctx : Setup} {S : Request → Prop} {F : String → Template → Prop} {p q s : Progress}
  {r : Request} {goal : Goal} {n : Node} {nodes made : List Node} {schema : Json} {c : Control}
  {build : Builder}

theorem Derives.mono (h : Derives ctx S F p goal n) (hk : p.Keeps q) :
    Derives ctx S F q goal n := by
  induction h with
  | leaf options ha hboxes => exact .leaf options ha hboxes
  | object ha ht hroot _ ih => exact .object ha ht hroot ih
  | array ha ht hb _ ih =>
      obtain ⟨b, hb⟩ := Option.isSome_iff_exists.mp hb
      exact .array ha ht (Option.isSome_iff_exists.mpr ⟨b, hk.dataMap _ b hb⟩) ih
  | reference ha ht => exact .reference ha ht
  | property _ ih => exact .property ih
  | required _ ih => exact .required ih
  | fixed _ ih => exact .fixed ih
  | copy last ht hr _ hitem ih => exact .copy last (hk.templates _ _ ht) hr ih hitem
  | given last ht hF hitem => exact .given last (hk.templates _ _ ht) hF hitem
  | add label bounds id => exact .add label bounds id
  | limited bounds _ href ih => exact .limited bounds ih href

/-- The template of the name is derived for the request that was made for it, or was
given. -/
def Origin (ctx : Setup) (S : Request → Prop) (F : String → Template → Prop) (p : Progress)
    (name : String) (t : Template) : Prop :=
  F name t ∨ ∃ r relative n, TemplateFor ctx S name relative r ∧
    Derives ctx S F p (.request r) n ∧ t = Template.of (storedNode relative n) relative

/-- All stored templates have an origin. -/
def Stocked (ctx : Setup) (S : Request → Prop) (F : String → Template → Prop)
    (p : Progress) : Prop :=
  ∀ name t, (name, some t) ∈ p.templates → Origin ctx S F p name t

theorem Origin.mono {name : String} {t : Template} (h : Origin ctx S F p name t)
    (hk : p.Keeps q) : Origin ctx S F q name t := by
  rcases h with hF | ⟨r, relative, n, hr, hn, rfl⟩
  · exact .inl hF
  · exact .inr ⟨r, relative, n, hr, hn.mono hk, rfl⟩

/-- Building goes on from a stocked library to another one, with all that is known in
it, and what is recorded stays. -/
structure Proceeds (ctx : Setup) (S : Request → Prop) (F : String → Template → Prop)
    (p q : Progress) : Prop where
  known : p.templates.Extends q.templates
  recorded : p.dataMap.Keeps q.dataMap
  stocked : Stocked ctx S F q

/-- Building gives nodes that are derived for the goal. -/
structure Yields (ctx : Setup) (S : Request → Prop) (F : String → Template → Prop)
    (goal : Goal) (p q : Progress) (nodes : List Node) : Prop extends Proceeds ctx S F p q where
  nodes : ∀ n ∈ nodes, Derives ctx S F q goal n

namespace Proceeds

theorem keeps (h : Proceeds ctx S F p q) : p.Keeps q := ⟨h.known.keeps, h.recorded⟩

theorem of_eq (hp : Stocked ctx S F p) (ht : q.templates = p.templates)
    (hd : p.dataMap.Keeps q.dataMap) : Proceeds ctx S F p q := by
  refine ⟨ht ▸ .refl _, hd, ?_⟩
  intro name t hm
  exact (hp name t (ht ▸ hm)).mono ⟨ht ▸ .refl _, hd⟩

/-- What is counted and marked does not matter. -/
theorem counted (hp : Stocked ctx S F p) (last : Nat) (required : Bool) :
    Proceeds ctx S F p { p with lastId := last, fieldsRequired := required } :=
  of_eq hp rfl (.refl _)

theorem trans (h : Proceeds ctx S F p q) (h' : Proceeds ctx S F q s) : Proceeds ctx S F p s :=
  ⟨h.known.trans h'.known, h.recorded.trans h'.recorded, h'.stocked⟩

theorem none (h : Proceeds ctx S F p q) : Yields ctx S F goal p q [] :=
  ⟨h, fun _ hn => absurd hn List.not_mem_nil⟩

end Proceeds

namespace Yields

theorem after (h : Proceeds ctx S F p q) (h' : Yields ctx S F goal q s nodes) :
    Yields ctx S F goal p s nodes :=
  ⟨h.trans h'.toProceeds, h'.nodes⟩

theorem before (h : Yields ctx S F goal p q nodes) (h' : Proceeds ctx S F q s) :
    Yields ctx S F goal p s nodes :=
  ⟨h.toProceeds.trans h', fun n hn => (h.nodes n hn).mono h'.keeps⟩

theorem append (h : Yields ctx S F goal p q nodes) (h' : Yields ctx S F goal q s made) :
    Yields ctx S F goal p s (nodes ++ made) := by
  refine ⟨h.toProceeds.trans h'.toProceeds, ?_⟩
  intro n hn
  cases List.mem_append.mp hn with
  | inl hn => exact (h.before h'.toProceeds).nodes n hn
  | inr hn => exact h'.nodes n hn

end Yields

/-! ## The walk -/

/-- A builder gives what is derived: the nodes of a request, and for the form as a whole
possibly those of its properties. -/
def Covers (ctx : Setup) (S : Request → Prop) (F : String → Template → Prop)
    (build : Builder) : Prop :=
  ∀ {r p mapped q}, Comes ctx S r → Stocked ctx S F p → (build r).Runs p mapped q →
    Yields ctx S F (.request r) p q mapped.toList ∨
      r.isRoot = true ∧ Yields ctx S F (.property r) p q mapped.toList

theorem isRoot_of_ne (h : r.dataPointer ≠ "") : r.isRoot = false := by
  rw [Request.isRoot, beq_false_of_ne h, Bool.false_and]

/-- Below the form as a whole a builder gives the nodes of the request. -/
theorem Covers.below (hb : Covers ctx S F build) (hr : Comes ctx S r) (hroot : r.isRoot = false)
    (hp : Stocked ctx S F p) {mapped : Mapped Node} (h : (build r).Runs p mapped q) :
    Yields ctx S F (.request r) p q mapped.toList := by
  rcases hb hr hp h with hy | ⟨htop, -⟩
  · exact hy
  · rw [hroot] at htop
    cases htop

/-! ### Objects -/

theorem markRequired_derives {required : Bool} (hs : Yields ctx S F (.property r) s p nodes)
    (h : (markRequired required nodes).Runs p made q) :
    Yields ctx S F (.property r) s q made := by
  rcases runs_markRequired h with ⟨rfl, rfl⟩ | ⟨rfl, rfl⟩
  · exact hs
  · have hq := hs.before (.counted hs.stocked p.lastId true)
    refine ⟨hq.toProceeds, ?_⟩
    intro n hn
    obtain ⟨m, hm, rfl⟩ := List.mem_map.mp hn
    exact .required (hq.nodes m hm)

theorem buildProperties_derives (hb : Covers ctx S F build) (hr : Comes ctx S r)
    (hschema : r.Reads ctx "object" schema) (hp : Stocked ctx S F p)
    (h : (buildProperties build r schema r.layout).Runs p made q) :
    Yields ctx S F (.property r) p q made := by
  rcases runs_buildProperties h with ⟨rfl, rfl⟩ | ⟨properties, parts, hproperties, hm, rfl⟩
  · exact (Proceeds.of_eq hp rfl (.refl _)).none
  · refine runs_mapM (R := fun p parts q => Stocked ctx S F p →
      Yields ctx S F (.property r) p q parts.flatten) ?_ ?_ hm hp
    · intro p hp
      exact (Proceeds.of_eq hp rfl (.refl _)).none
    · intro name hname p part s parts q hpart hparts hp
      obtain ⟨mapped, s', required, hbuilt, hmark⟩ := runs_buildProperty hpart
      have hcomes := Comes.property hr hschema hproperties hname
      have hroot := isRoot_of_ne (r := propertyRequest r (childLayout r r.layout) name)
        (Pointer.slash_ne_empty r.dataPointer (Pointer.escape name))
      have hnodes := hb.below hcomes hroot hp hbuilt
      have hproperty : Yields ctx S F (.property r) p s' mapped.toList :=
        ⟨hnodes.toProceeds, fun n hn => .property (hnodes.nodes n hn)⟩
      have hmarked := markRequired_derives hproperty hmark
      exact hmarked.append (hparts hmarked.stocked)

/-! ### Templates -/

theorem ensureTemplate_proceeds (hb : Covers ctx S F build) (hr : Comes ctx S r)
    {name : String} {relative : Bool} (ht : TemplateFor ctx S name relative r)
    (hp : Stocked ctx S F p) {u : Unit} (h : (ensureTemplate build name relative r).Runs p u q) :
    Proceeds ctx S F p q := by
  rcases runs_ensureTemplate h with ⟨-, rfl⟩ | ⟨hknown, mapped, s, hbuilt, rfl⟩
  · exact .of_eq hp rfl (.refl _)
  · have hreserved : Stocked ctx S F { p with templates := p.templates.reserve name } := by
      intro other t hm
      cases Table.mem_insert hm with
      | inl he => cases he
      | inr hm => exact (hp other t hm).mono ⟨(Library.Extends.reserve hknown).keeps, .refl _⟩
    have hnodes := hb.below hr (isRoot_template ht.inTemplate) hreserved hbuilt
    obtain ⟨hextends, hkeeps⟩ :=
      Library.extends_settled hknown hnodes.known relative mapped.toList
    refine ⟨hextends, hnodes.recorded, ?_⟩
    have hsettled : s.Keeps
        { s with templates := settled s.templates name relative mapped.toList } :=
      ⟨hkeeps, .refl _⟩
    intro other t hm
    rcases Library.mem_settled hm with hm | ⟨rfl, n, hn, rfl⟩
    · exact (hnodes.stocked other t hm).mono hsettled
    · have hn := hnodes.nodes n (List.mem_of_getLast? hn)
      exact .inr ⟨r, relative, n, ht, hn.mono hsettled, rfl⟩

/-- A copy of a stored template is an item of the array. -/
theorem place_derives {array : Control} (hp : Stocked ctx S F p) {name item : String}
    {t : Template} (ht : p.templates.template? name = some t) (hitem : Takes ctx r name item)
    (last : Nat) :
    Derives ctx S F p (.item r array) (t.place ⟨item, (itemSite ctx r).layout⟩ last).1 := by
  rcases hp name t (Library.template?_mem ht) with hF | ⟨r', relative, n, hr', hn, rfl⟩
  · exact .given last ht hF hitem
  · exact .copy last ht hr' hn hitem

theorem instantiate_derives {array : Control} (hp : Stocked ctx S F p) {name item : String}
    (hitem : Takes ctx r name item) {found : Option Node}
    (h : (instantiate name ⟨item, (itemSite ctx r).layout⟩).Runs p found q) :
    Yields ctx S F (.item r array) p q found.toList := by
  rcases runs_instantiate.mp h with ⟨-, rfl, rfl⟩ | ⟨t, n, ht, hn, rfl⟩
  · exact (Proceeds.of_eq hp rfl (.refl _)).none
  · obtain ⟨rfl, rfl⟩ := runs_placed.mp hn
    refine ⟨.of_eq hp rfl (.refl _), fun m hm => ?_⟩
    obtain rfl := Option.some.inj (Option.mem_toList.mp hm)
    exact (place_derives hp ht hitem p.lastId).mono ⟨.refl _, .refl _⟩

/-! ### Arrays -/

variable {array : Control} {tuple : List Json} {bounds : ArrayBounds} {removable : Bool}
  {items : List Node}

theorem buildTupleItem_derives (hb : Covers ctx S F build) (hr : Comes ctx S r)
    (hschema : r.Reads ctx "array" schema)
    (htuple : (schema.get? "items").bind Json.arr? = some tuple) {index : Nat}
    (hindex : index < tuple.length) (hp : Stocked ctx S F p) {found : Option Node}
    (h : (buildTupleItem build r (itemSite ctx r) bounds removable index).Runs p found q) :
    Yields ctx S F (.item r array) p q found.toList := by
  rcases runs_buildTupleItem h with ⟨s, u, he, hi⟩ | ⟨mapped, hbuilt, rfl⟩
  · have htakes :
        Takes ctx r (tupleName (itemSite ctx r) index) (Pointer.item r.dataPointer index) :=
      .tuple hschema htuple hindex
    have hs := ensureTemplate_proceeds hb (.tuple hr hschema htuple hindex)
      (.item _ hr htakes fun _ => rfl) hp he
    exact .after hs (instantiate_derives hs.stocked htakes hi)
  · have hcomes := Comes.fixed hr hschema htuple hindex
    have hroot := isRoot_of_ne (r := tupleRequest r (itemSite ctx r) index)
      (Pointer.slash_ne_empty r.dataPointer (Nat.repr index))
    have hnodes := hb.below hcomes hroot hp hbuilt
    refine ⟨hnodes.toProceeds, fun n hn => ?_⟩
    exact .fixed (hnodes.nodes n (List.mem_of_getLast? (Option.mem_toList.mp hn)))

theorem buildTuple_derives (hb : Covers ctx S F build) (hr : Comes ctx S r)
    (hschema : r.Reads ctx "array" schema) (hp : Stocked ctx S F p)
    (h : (buildTuple build r (itemSite ctx r) schema bounds removable).Runs p made q) :
    Yields ctx S F (.item r array) p q made := by
  rcases runs_buildTuple h with ⟨rfl, rfl⟩ | ⟨tuple, parts, htuple, hm, rfl⟩
  · exact (Proceeds.of_eq hp rfl (.refl _)).none
  · refine runs_mapM (R := fun p parts q => Stocked ctx S F p →
      Yields ctx S F (.item r array) p q (parts.filterMap id)) ?_ ?_ hm hp
    · intro p hp
      exact (Proceeds.of_eq hp rfl (.refl _)).none
    · intro index hindex p part s parts q hpart hparts hp
      have hlt : index < tuple.length :=
        Nat.lt_of_lt_of_le (List.mem_range.mp hindex) (Nat.min_le_right _ _)
      have hnodes : Yields ctx S F (.item r array) p s part.toList :=
        buildTupleItem_derives hb hr hschema htuple hlt hp hpart
      have hsplit : (part :: parts).filterMap id = part.toList ++ parts.filterMap id := by
        cases part <;> rfl
      rw [hsplit]
      exact hnodes.append (hparts hnodes.stocked)

theorem fillItems_derives (hs : Yields ctx S F (.item r array) s p items) {name item : String}
    (hitem : Takes ctx r name item) {count : Nat}
    (h : (fillItems name ⟨item, (itemSite ctx r).layout⟩ count items).Runs p made q) :
    Yields ctx S F (.item r array) s q made := by
  rcases runs_fillItems h with ⟨rfl, rfl⟩ | ⟨t, more, ht, hc, rfl⟩
  · exact hs
  · obtain ⟨⟨last, rfl⟩, hcopies⟩ := runs_copies hc
    have hmore := Proceeds.counted hs.stocked last p.fieldsRequired
    refine hs.append ⟨hmore, fun n hn => ?_⟩
    obtain ⟨last', rfl⟩ := hcopies n hn
    exact (place_derives hs.stocked ht hitem last').mono hmore.keeps

theorem limitLast_derives (hs : ∀ n ∈ items, Derives ctx S F q (.item r array) n)
    (bounds : ArrayBounds) : ∀ n ∈ limitLast bounds items, Derives ctx S F q (.item r array) n := by
  intro n hn
  unfold limitLast at hn
  split at hn
  · next last hlast =>
      have hmem := List.mem_of_getLast? hlast
      split at hn
      · next href =>
          cases List.mem_append.mp hn with
          | inl hn => exact hs n (List.mem_of_mem_dropLast hn)
          | inr hn =>
              rw [List.mem_singleton.mp hn]
              exact .limited bounds (hs last hmem) href
      · exact hs n hn
  · exact hs n hn

theorem withAddControl_derives (hs : Yields ctx S F (.item r array) s p items)
    (h : (withAddControl ctx (itemSite ctx r) schema array bounds items).Runs p made q) :
    Yields ctx S F (.item r array) s q made := by
  rcases runs_withAddControl h with ⟨rfl, rfl⟩ | ⟨label, rfl, rfl⟩
  · exact ⟨hs.toProceeds, limitLast_derives hs.nodes bounds⟩
  · refine hs.append ⟨.counted hs.stocked _ _, fun n hn => ?_⟩
    rw [List.mem_singleton.mp hn]
    exact .add label bounds _

theorem buildList_derives (hb : Covers ctx S F build) (hr : Comes ctx S r)
    (hschema : r.Reads ctx "array" schema) {keyword : String}
    (hkeyword : listKeyword? schema = some keyword)
    (hs : Yields ctx S F (.item r array) s p items)
    (h : (buildList ctx build r (itemSite ctx r) schema array bounds keyword items).Runs p made q) :
    Yields ctx S F (.item r array) s q made := by
  obtain ⟨s₁, s₂, filled, count, u, he, hf, ha⟩ := runs_buildList h
  have htakes : Takes ctx r (itemSite ctx r).name (Pointer.anyItem r.dataPointer) :=
    .list hschema hkeyword
  have hstored := ensureTemplate_proceeds hb (.list _ hr hschema hkeyword)
    (.item _ hr htakes fun h => by cases h) hs.stocked he
  have hfilled := fillItems_derives (hs.before hstored) htakes hf
  exact withAddControl_derives hfilled ha

/-- An array is its control around what is derived for its items, and its bounds are
recorded. -/
theorem buildArray_derives (hb : Covers ctx S F build) (hr : Comes ctx S r)
    (hschema : r.Reads ctx "array" schema)
    (hc : c.layoutPointer = r.layout) (hp : Stocked ctx S F p)
    (h : (buildArray ctx build r schema c).Runs p n q) :
    ∃ items, n = .mk (boundedControl ctx r schema c) items ∧
      Yields ctx S F (.item r (boundedControl ctx r schema c)) p q items ∧
      (q.dataMap.bounds? (boundsKey ctx r)).isSome = true := by
  obtain ⟨site, items, made, s, hsite, htuple, rfl, s', rfl, h⟩ := runs_buildArray h
  obtain rfl : site = itemSite ctx r := hsite.trans (arraySite_eq hc)
  have hitems : Yields ctx S F (.item r (boundedControl ctx r schema c)) p s items :=
    buildTuple_derives hb hr hschema hp htuple
  have hkeeps : s.dataMap.Keeps (s.dataMap.update (boundsKey ctx r)
      (DataEntry.withBounds (boundsFor ctx r schema c))) := by
    refine s.dataMap.keeps_update _ fun e b he => ?_
    simp only [DataEntry.withBounds, he, Option.some_or]
  have hnoted := hitems.before (.of_eq (q := { s with
      dataMap := s.dataMap.update (boundsKey ctx r)
        (DataEntry.withBounds (boundsFor ctx r schema c)) }) hitems.stocked rfl hkeeps)
  have hrecorded : ((s.dataMap.update (boundsKey ctx r) (DataEntry.withBounds
      (boundsFor ctx r schema c))).bounds? (boundsKey ctx r)).isSome = true := by
    rw [DataMap.bounds?_update, if_pos rfl]
    simp only [DataEntry.withBounds, Option.isSome_or, Option.isSome_some, Bool.or_true]
  rcases h with ⟨-, rfl, rfl⟩ | ⟨keyword, hkeyword, hl⟩
  · exact ⟨_, rfl, hnoted, hrecorded⟩
  · have hmade := buildList_derives hb hr hschema hkeyword
      ⟨.of_eq hnoted.stocked rfl (.refl _), hnoted.nodes⟩ hl
    obtain ⟨b, hb⟩ := Option.isSome_iff_exists.mp hrecorded
    refine ⟨made, rfl, .after hnoted.toProceeds hmade, ?_⟩
    rw [hmade.recorded _ b hb]
    rfl

/-! ### Nodes -/

theorem buildReference_proceeds (hb : Covers ctx S F build) (hr : Comes ctx S r)
    (hschema : r.Reads ctx "$ref" schema) (hp : Stocked ctx S F p) {made : Control}
    (h : (buildReference ctx build r c).Runs p made q) :
    made = referenceControl ctx r c (ctx.dataKey r.fullPointer) ∧ Proceeds ctx S F p q := by
  obtain ⟨rfl, u, he⟩ := runs_buildReference h
  exact ⟨rfl, ensureTemplate_proceeds hb (.target _ hr hschema) (.target _ hr hschema) hp he⟩

/-- The control of a request has the type of data that its schema describes. -/
theorem Answers.reads {type : String} (h : Answers ctx S r schema c)
    (ht : c.dataType = some type) : r.Reads ctx type schema := by
  obtain ⟨_, id, -, rfl⟩ := h.control
  rw [controlFor_dataType] at ht
  exact ⟨h.found, ht⟩

theorem Answers.layoutPointer (h : Answers ctx S r schema c) : c.layoutPointer = r.layout := by
  obtain ⟨type, id, -, rfl⟩ := h.control
  exact controlFor_layoutPointer ctx r schema type id

theorem complete_derives (hb : Covers ctx S F build) (ha : Answers ctx S r schema c)
    (hp : Stocked ctx S F p) {mapped : Mapped Node}
    (h : (complete ctx build r schema c).Runs p mapped q) :
    Yields ctx S F (.request r) p q mapped.toList ∨
      r.isRoot = true ∧ Yields ctx S F (.property r) p q mapped.toList := by
  rcases runs_complete h with ⟨ht, children, hchildren, rfl⟩ | ⟨hboxes, options, rfl, rfl⟩ |
      ⟨ht, n, hn, rfl⟩ | ⟨ht, made, hm, rfl⟩
  · rw [ha.layoutPointer] at hchildren
    have hy := buildProperties_derives hb ha.comes (ha.reads ht) hp hchildren
    cases hroot : r.isRoot with
    | true => exact .inr ⟨rfl, hy⟩
    | false =>
        refine .inl ⟨hy.toProceeds, fun n hn => ?_⟩
        rw [List.mem_singleton.mp hn]
        exact .object ha ht hroot hy.nodes
  · refine .inl ⟨.of_eq hp rfl (.refl _), fun n hn => ?_⟩
    rw [List.mem_singleton.mp hn]
    exact .leaf options ha hboxes
  · obtain ⟨items, rfl, hy, hrecorded⟩ :=
      buildArray_derives hb ha.comes (ha.reads ht) ha.layoutPointer hp hn
    refine .inl ⟨hy.toProceeds, fun n hn => ?_⟩
    rw [List.mem_singleton.mp hn]
    exact .array ha ht hrecorded hy.nodes
  · obtain ⟨rfl, hq⟩ := buildReference_proceeds hb ha.comes (ha.reads ht) hp hm
    refine .inl ⟨hq, fun n hn => ?_⟩
    rw [List.mem_singleton.mp hn]
    exact .reference ha ht

theorem keeps_noted (ctx : Setup) (r : Request) (schema : Json) (c : Control) (m : DataMap) :
    m.Keeps (noted ctx r schema c m) := by
  unfold noted
  split
  · exact m.keeps_update _ fun _ _ he => he
  · exact .refl m

theorem buildSchema_derives (hb : Covers ctx S F build) (hr : Comes ctx S r)
    (hschema : ctx.resolved.schemaAt? r.schemaPointer = some schema) {type : String}
    (htype : Schema.controlType? schema [] = some type) (hp : Stocked ctx S F p)
    {mapped : Mapped Node} (h : (buildSchema ctx build r schema type).Runs p mapped q) :
    Yields ctx S F (.request r) p q mapped.toList ∨
      r.isRoot = true ∧ Yields ctx S F (.property r) p q mapped.toList := by
  obtain ⟨id, s, hs, hc⟩ := runs_buildSchema h
  have hnoted : Proceeds ctx S F p
      { s with dataMap := noted ctx r schema (controlFor ctx r schema type id) s.dataMap } := by
    rcases hs with ⟨-, -, rfl⟩ | ⟨-, -, rfl⟩
    · exact .of_eq hp rfl (keeps_noted ctx r schema _ _)
    · exact .of_eq hp rfl (keeps_noted ctx r schema _ _)
  have ha : Answers ctx S r schema (controlFor ctx r schema type id) :=
    ⟨hr, hschema, type, id, htype, rfl⟩
  rcases complete_derives hb ha hnoted.stocked hc with hy | ⟨hroot, hy⟩
  · exact .inl (.after hnoted hy)
  · exact .inr ⟨hroot, .after hnoted hy⟩

/-- **The walk.**  Whatever the builder gives is derived. -/
theorem derives_run : Covers ctx S F (run ctx) := by
  refine run_induction (P := Covers ctx S F) ?_ ?_
  · intro r p mapped q _ _ h
    exact absurd h not_runs_failure
  · intro build hb r p mapped q hr hp h
    rcases runs_buildOne h with ⟨rfl, rfl⟩ | ⟨schema, type, hschema, -, htype, hs⟩
    · exact .inl (Proceeds.of_eq hp rfl (.refl _)).none
    · exact buildSchema_derives hb hr hschema htype hp hs

/-- The request for the form as a whole. -/
def Whole (r : Request) : Prop := r = {}

theorem whole_levelled : ∀ r, Whole r → r.Levelled := by
  rintro r rfl
  exact ⟨0, layout_of_empty rfl⟩

theorem whole_written : ∀ r, Whole r → Pointer.Written r.dataPointer := by
  rintro r rfl
  exact ⟨[], rfl⟩

/-- No template is in the library before. -/
def NoneGiven (_ : String) (_ : Template) : Prop := False

end Generate

namespace Form

open Generate

/-- **Layouts of whole schemas.**  Such a layout consists of nodes derived for the form as
a whole, and possibly of a submit control; all templates are derived too. -/
theorem whole_derives {options : FormOptions} {widgets : Registry} {schema data : Option Json}
    {form : Form} (h : compile options widgets schema none data = .ok form) :
    ∃ (built : List Node) (s : Progress) (more : List Node),
      Stocked form.setup Whole NoneGiven s ∧
      ((∀ n ∈ built, Derives form.setup Whole NoneGiven s (.request {}) n) ∨
        ∀ n ∈ built, Derives form.setup Whole NoneGiven s (.property {}) n) ∧
      (more = [] ∨ ∃ id, more = [Compose.submitControl form.setup id]) ∧
      form.layout = Node.mapAll (Compose.withTitleMap form.setup.options.flatList)
        (built.map (·.modify (Compose.topControl form.setup)) ++ more) ∧
      form.progress.dataMap = s.dataMap ∧
      form.progress.templates =
        s.templates.mapControls (Compose.withTitleMap form.setup.options.flatList) := by
  obtain ⟨mapped, s, more, last, hrun, hmore, hlayout, hprogress⟩ :=
    Compose.runs_wholeLayout (compile_whole h)
  have hstart : Stocked form.setup Whole NoneGiven { ({} : Progress) with lastId := 0 + 1 } :=
    fun _ _ hm => absurd hm List.not_mem_nil
  have hcomes : Comes form.setup Whole {} := .start rfl
  refine ⟨mapped.toList, s, more, ?_, ?_, hmore, hlayout, ?_, ?_⟩
  · rcases derives_run hcomes hstart hrun with hy | ⟨-, hy⟩ <;> exact hy.stocked
  · rcases derives_run hcomes hstart hrun with hy | ⟨-, hy⟩
    · exact .inl hy.nodes
    · exact .inr hy.nodes
  · rw [hprogress]
  · rw [hprogress]

/-- The stored templates are derived, but for the title maps that are added at the end. -/
theorem stored_origin {options : FormOptions} {widgets : Registry} {schema data : Option Json}
    {form : Form} (h : compile options widgets schema none data = .ok form) {name : String}
    {t : Template} (ht : form.progress.templates.template? name = some t) :
    ∃ s stored, Origin form.setup Whole NoneGiven s name stored ∧
      t = ⟨stored.node.map (Compose.withTitleMap form.setup.options.flatList), stored.relative⟩ ∧
      form.progress.templates =
        s.templates.mapControls (Compose.withTitleMap form.setup.options.flatList) := by
  obtain ⟨built, s, more, hstocked, -, -, -, -, htemplates⟩ := whole_derives h
  rw [htemplates, Library.template?_mapControls] at ht
  obtain ⟨stored, hstored, rfl⟩ := Option.map_eq_some_iff.mp ht
  exact ⟨s, stored, hstocked name stored (Library.template?_mem hstored), rfl, htemplates⟩

end Form

end SchemaForm
