/-
Templates that controls are offered.

A control with a reference is made for a request that asks for a template: for the list
items of an array, or for the target of a reference (`Offers`).  The template is built
from the schema at a pointer, and there is one when that schema says enough for a control
(`Speaks`).  Templates of fixed positions are asked for too, under names of the same kind
(`Fills`).

`Brings` says what a step of building does to the library and to the references in nodes:
names stay known, no name is left reserved, stored templates are those of schemas that
speak, and each reference in the nodes was there before, or is offered and its template is
known if its schema speaks.  The steps of generating nodes bring their nodes out of nothing
(`serves_run`).
-/
import SchemaForm.Proofs.Layout.Links
import SchemaForm.Proofs.Layout.Records

namespace SchemaForm

open Build

namespace Node

/-! ## References in nodes -/

variable {ns ms : List Node} {n : Node} {name : String} {f : Control → Control}

/-- The names of the templates that the controls of nodes expand from. -/
def references (ns : List Node) : List String := (controlsAll ns).filterMap Control.reference

theorem mem_references :
    name ∈ references ns ↔ ∃ c ∈ controlsAll ns, c.reference = some name :=
  List.mem_filterMap

theorem references_append (ns ms : List Node) :
    references (ns ++ ms) = references ns ++ references ms := by
  rw [references, controlsAll_append, List.filterMap_append]
  rfl

theorem mem_references_of_mem (hn : n ∈ ns) (h : name ∈ references [n]) : name ∈ references ns := by
  obtain ⟨c, hc, hname⟩ := mem_references.mp h
  obtain ⟨m, hm, hc⟩ := mem_controlsAll.mp hc
  rw [List.mem_singleton.mp hm] at hc
  exact mem_references.mpr ⟨c, mem_controlsAll.mpr ⟨n, hn, hc⟩, hname⟩

theorem mem_references_iff : name ∈ references ns ↔ ∃ n ∈ ns, name ∈ references [n] := by
  constructor
  · intro h
    obtain ⟨c, hc, hname⟩ := mem_references.mp h
    obtain ⟨n, hn, hc⟩ := mem_controlsAll.mp hc
    exact ⟨n, hn, mem_references.mpr
      ⟨c, mem_controlsAll.mpr ⟨n, List.mem_singleton_self n, hc⟩, hname⟩⟩
  · rintro ⟨n, hn, h⟩
    exact mem_references_of_mem hn h

theorem references_subset (h : ns ⊆ ms) : references ns ⊆ references ms := by
  intro name hname
  obtain ⟨n, hn, hname⟩ := mem_references_iff.mp hname
  exact mem_references_of_mem (h hn) hname

theorem mem_references_mk {c : Control} :
    name ∈ references [mk c ns] ↔ c.reference = some name ∨ name ∈ references ns := by
  simp only [references, controlsAll, controls, List.append_nil, List.filterMap_cons]
  cases c.reference with
  | none => simp
  | some other => simp [eq_comm]

theorem mem_references_modify (hf : ∀ c, (f c).reference = c.reference) :
    name ∈ references [n.modify f] ↔ name ∈ references [n] := by
  cases n with
  | mk c items => rw [modify, mem_references_mk, mem_references_mk, hf]

theorem mem_references_map_modify (hf : ∀ c, (f c).reference = c.reference) :
    name ∈ references (ns.map (·.modify f)) ↔ name ∈ references ns := by
  refine mem_references_iff.trans (Iff.trans ?_ mem_references_iff.symm)
  constructor
  · rintro ⟨_, hm, h⟩
    obtain ⟨n, hn, rfl⟩ := List.mem_map.mp hm
    exact ⟨n, hn, (mem_references_modify hf).mp h⟩
  · rintro ⟨n, hn, h⟩
    exact ⟨_, List.mem_map_of_mem hn, (mem_references_modify hf).mpr h⟩

theorem references_mapAll (hf : ∀ c, (f c).reference = c.reference) (ns : List Node) :
    references (mapAll f ns) = references ns := by
  rw [references, controlsAll_mapAll, List.filterMap_map]
  exact List.filterMap_congr fun c _ => hf c

theorem references_map (hf : ∀ c, (f c).reference = c.reference) (n : Node) :
    references [n.map f] = references [n] := references_mapAll hf [n]

end Node

theorem Template.references_of (n : Node) (relative : Bool) :
    Node.references [(Template.of n relative).node] = Node.references [n] :=
  Node.references_map (f := fun c => { c with id := none }) (fun _ => rfl) n

theorem Template.placedControl_reference (t : Template) (site : Site) (id : Nat) (c : Control) :
    (t.placedControl site id c).reference = c.reference := by
  unfold Template.placedControl
  split <;> rfl

/-- A copy refers to what the template does. -/
theorem Template.mem_references_place {t : Template} {site : Site} {last : Nat} {name : String}
    (h : name ∈ Node.references [(t.place site last).1]) : name ∈ Node.references [t.node] := by
  obtain ⟨c, hc, hname⟩ := Node.mem_references.mp h
  obtain ⟨n, hn, hc⟩ := Node.mem_controlsAll.mp hc
  rw [List.mem_singleton.mp hn] at hc
  obtain ⟨first, hfirst, id, rfl⟩ := Template.mem_controls_placeNode t.node last hc
  rw [Template.placedControl_reference] at hname
  exact Node.mem_references.mpr
    ⟨first, Node.mem_controlsAll.mpr ⟨_, List.mem_singleton_self _, hfirst⟩, hname⟩

namespace Generate

/-! ## Requests for templates -/

/-- The schema at the pointer says enough for a control. -/
def Speaks (ctx : Setup) (pointer : String) : Prop :=
  ∃ schema type, ctx.resolved.schemaAt? pointer = some schema ∧ isDescribed schema = true ∧
    Schema.controlType? schema [] = some type

/-- The control is one of the schema at the pointer. -/
def IsOf (ctx : Setup) (pointer : String) (c : Control) : Prop :=
  ∃ schema, ctx.resolved.schemaAt? pointer = some schema ∧ isDescribed schema = true ∧
    Schema.controlType? schema [] = some c.type ∧ c.dataType = dataType? schema

theorem IsOf.speaks {ctx : Setup} {pointer : String} {c : Control} (h : IsOf ctx pointer c) :
    Speaks ctx pointer := by
  obtain ⟨schema, hschema, hdescribed, htype, -⟩ := h
  exact ⟨schema, _, hschema, hdescribed, htype⟩

theorem IsOf.congr {ctx : Setup} {pointer : String} {c c' : Control} (h : IsOf ctx pointer c)
    (ht : c'.type = c.type) (hd : c'.dataType = c.dataType) : IsOf ctx pointer c' := by
  obtain ⟨schema, hschema, hdescribed, htype, hdata⟩ := h
  exact ⟨schema, hschema, hdescribed, ht ▸ htype, hd.trans hdata⟩

/-- The request comes up in a form: the one for the whole schema, one for a bound entry,
whose schema pointer was found for its data or recorded for it by another request, and
those that these lead to. -/
inductive Arises (ctx : Setup) : Request → Prop
  | whole (layoutPointer : String) : Arises ctx { layoutPointer }
  | found {c : Control} {pointer : String} :
      Schema.pointerOfData? ctx.schema (ctx.dataKey (c.dataPointer.getD "")) = some pointer →
      Arises ctx (boundRequest pointer c)
  | recorded {S : Request → Prop} {r : Request} {c : Control} :
      (∀ s, S s → Arises ctx s) → Describes ctx S (ctx.dataKey (c.dataPointer.getD "")) r →
      Arises ctx (boundRequest r.schemaPointer c)

/-- A request that comes up offers templates under the name, built from the schema at the
pointer. -/
inductive Offers (ctx : Setup) : String → String → Prop
  | list {r : Request} {schema : Json} {keyword : String} : Comes ctx (Arises ctx) r →
      r.Reads ctx "array" schema → listKeyword? schema = some keyword →
      Offers ctx (itemSite ctx r).name (ctx.schemaKey (r.schemaPointer ++ "/" ++ keyword))
  | target {r : Request} {schema : Json} : Comes ctx (Arises ctx) r →
      r.Reads ctx "$ref" schema →
      Offers ctx (ctx.dataKey r.fullPointer) (ctx.schemaKey r.schemaPointer)

/-- A request that comes up stores templates under the name, built from the schema at the
pointer. -/
inductive Fills (ctx : Setup) : String → String → Prop
  | offered {name pointer : String} : Offers ctx name pointer → Fills ctx name pointer
  | tuple {r : Request} {schema : Json} {tuple : List Json} {index : Nat} :
      Comes ctx (Arises ctx) r → r.Reads ctx "array" schema →
      (schema.get? "items").bind Json.arr? = some tuple → index < tuple.length →
      Fills ctx (tupleName (itemSite ctx r) index)
        (Pointer.item (r.schemaPointer ++ "/items") index)

/-- The schema pointer is the one of the data under the key. -/
def Leads (ctx : Setup) (key pointer : String) : Prop :=
  Schema.pointerOfData? ctx.schema key = some pointer ∨
    ∃ r, Describes ctx (Arises ctx) key r ∧ pointer = r.schemaPointer

/-- Every recorded schema pointer is one of the data under its key. -/
def LeadsAll (ctx : Setup) (m : DataMap) : Prop :=
  ∀ key pointer, m.pointer? key = some pointer → Leads ctx key pointer

/-- The template is of a schema that was asked for under the name, or was made of what a
description has (`B`). -/
def Filed (ctx : Setup) (B : Prop) (name : String) (t : Template) : Prop :=
  B ∨ ∃ pointer, Fills ctx name pointer ∧ IsOf ctx pointer t.node.control

/-- A template is offered under the name, and known if its schema speaks; one made of what
a description has is known. -/
def Offered (ctx : Setup) (B : Prop) (l : Library) (name : String) : Prop :=
  (B ∧ l.knows name = true) ∨
    ∃ pointer, Offers ctx name pointer ∧ (Speaks ctx pointer → l.knows name = true)

/-- What has been built so far is as it should be, and so are the nodes at hand. -/
structure Sound (ctx : Setup) (B : Prop) (p : Progress) (nodes : List Node) : Prop where
  nodup : (Table.names p.templates).Nodup
  filed : ∀ name t, (name, some t) ∈ p.templates → Filed ctx B name t
  stored : ∀ name t, (name, some t) ∈ p.templates →
    ∀ other ∈ Node.references [t.node], Offered ctx B p.templates other
  leads : LeadsAll ctx p.dataMap
  nodes : ∀ name ∈ Node.references nodes, Offered ctx B p.templates name

/-- From `p` to `q`, the nodes `made` came out of the nodes `given`. -/
structure Brings (ctx : Setup) (B : Prop) (p q : Progress) (given made : List Node) : Prop where
  known : p.templates.Extends q.templates
  sound : Sound ctx B p given → Sound ctx B q made
  settled : Sound ctx B p given → ∀ name, (name, none) ∈ q.templates → (name, none) ∈ p.templates

variable {ctx : Setup} {B : Prop} {p q s : Progress} {r : Request} {l l' : Library}
  {given made more nodes : List Node} {n : Node} {schema : Json} {c : Control}
  {build : Builder} {name pointer : String}

theorem knows_mono (h : l.Extends l') (hk : l.knows name = true) : l'.knows name = true := by
  obtain ⟨entry, he⟩ := Option.isSome_iff_exists.mp hk
  exact Option.isSome_iff_exists.mpr ⟨entry, h name entry he⟩

theorem Offered.mono (h : Offered ctx B l name)
    (hl : ∀ name, l.knows name = true → l'.knows name = true) : Offered ctx B l' name := by
  rcases h with ⟨hB, hk⟩ | ⟨pointer, hoffers, hknown⟩
  · exact .inl ⟨hB, hl name hk⟩
  · exact .inr ⟨pointer, hoffers, fun hs => hl name (hknown hs)⟩

theorem Sound.withNodes (h : Sound ctx B p nodes)
    (hmore : ∀ name ∈ Node.references more, Offered ctx B p.templates name) :
    Sound ctx B p more :=
  { h with nodes := hmore }

theorem Sound.subset (h : Sound ctx B p nodes)
    (hsub : Node.references more ⊆ Node.references nodes) : Sound ctx B p more :=
  h.withNodes fun name hname => h.nodes name (hsub hname)

namespace Brings

theorem refl (p : Progress) (nodes : List Node) : Brings ctx B p p nodes nodes :=
  ⟨.refl _, id, fun _ _ h => h⟩

theorem trans (h : Brings ctx B p q given made) (h' : Brings ctx B q s made more) :
    Brings ctx B p s given more :=
  ⟨h.known.trans h'.known, fun hp => h'.sound (h.sound hp),
    fun hp name hm => h.settled hp name (h'.settled (h.sound hp) name hm)⟩

/-- References that are there already may be left out or repeated. -/
theorem weaken (h : Brings ctx B p q given made)
    (hsub : Node.references more ⊆ Node.references made) : Brings ctx B p q given more :=
  ⟨h.known, fun hp => (h.sound hp).subset hsub, h.settled⟩

theorem widen (h : Brings ctx B p q given made)
    (hsub : Node.references given ⊆ Node.references more) : Brings ctx B p q more made :=
  ⟨h.known, fun hp => h.sound (hp.subset hsub), fun hp => h.settled (hp.subset hsub)⟩

/-- Nodes that are set aside meanwhile are not touched. -/
theorem frame (h : Brings ctx B p q given made) (aside : List Node) :
    Brings ctx B p q (aside ++ given) (aside ++ made) := by
  have hgiven : Node.references given ⊆ Node.references (aside ++ given) :=
    Node.references_subset (List.subset_append_right _ _)
  have haside : Node.references aside ⊆ Node.references (aside ++ given) :=
    Node.references_subset (List.subset_append_left _ _)
  refine ⟨h.known, fun hp => ?_, fun hp => h.settled (hp.subset hgiven)⟩
  have hq := h.sound (hp.subset hgiven)
  refine hq.withNodes fun name hname => ?_
  rw [Node.references_append, List.mem_append] at hname
  rcases hname with hname | hname
  · exact (hp.nodes name (haside hname)).mono fun _ => knows_mono h.known
  · exact hq.nodes name hname

theorem append (h : Brings ctx B p q [] made) (h' : Brings ctx B q s [] more) :
    Brings ctx B p s [] (made ++ more) := by
  have hmore := h'.frame made
  rw [List.append_nil] at hmore
  exact h.trans hmore

/-- A container around nodes, with the reference it had. -/
theorem around (h : Brings ctx B p q given made) {c' : Control}
    (hc : c'.reference = c.reference) : Brings ctx B p q [.mk c given] [.mk c' made] := by
  have hgiven : Node.references given ⊆ Node.references [.mk c given] :=
    fun name hname => Node.mem_references_mk.mpr (.inr hname)
  refine ⟨h.known, fun hp => ?_, fun hp => h.settled (hp.subset hgiven)⟩
  have hq := h.sound (hp.subset hgiven)
  refine hq.withNodes fun name hname => ?_
  rcases Node.mem_references_mk.mp hname with hname | hname
  · have hmem : name ∈ Node.references [.mk c given] :=
      Node.mem_references_mk.mpr (.inl (hc.symm.trans hname))
    exact (hp.nodes name hmem).mono fun _ => knows_mono h.known
  · exact hq.nodes name hname

/-- A container without a reference around nodes. -/
theorem within (h : Brings ctx B p q given made) (hc : c.reference = .none) :
    Brings ctx B p q given [.mk c made] := by
  refine h.weaken fun name hname => ?_
  rcases Node.mem_references_mk.mp hname with hname | hname
  · rw [hc] at hname
    cases hname
  · exact hname

/-- The library stays as it is, and the data map tells the truth. -/
theorem of_eq (ht : q.templates = p.templates)
    (hd : LeadsAll ctx p.dataMap → LeadsAll ctx q.dataMap) :
    Brings ctx B p q nodes nodes :=
  ⟨ht ▸ .refl _, fun hp => ⟨ht ▸ hp.nodup, ht ▸ hp.filed, ht ▸ hp.stored, hd hp.leads,
    ht ▸ hp.nodes⟩, fun _ _ hm => ht ▸ hm⟩

/-- What is counted and marked does not matter. -/
theorem counted (p : Progress) (last : Nat) (required : Bool) (nodes : List Node) :
    Brings ctx B p { p with lastId := last, fieldsRequired := required } nodes nodes :=
  of_eq rfl id

/-- Nodes with references that are offered are added. -/
theorem extend (h : Brings ctx B p q given made)
    (hmore : Sound ctx B q made → ∀ name ∈ Node.references more, Offered ctx B q.templates name) :
    Brings ctx B p q given (made ++ more) := by
  refine ⟨h.known, fun hp => (h.sound hp).withNodes fun name hname => ?_, h.settled⟩
  rw [Node.references_append, List.mem_append] at hname
  rcases hname with hname | hname
  · exact (h.sound hp).nodes name hname
  · exact hmore (h.sound hp) name hname

end Brings

/-- Writing an entry keeps what leads, if what is written does. -/
theorem LeadsAll.update {m : DataMap} (h : LeadsAll ctx m) {key : String}
    {f : DataEntry → DataEntry} (hf : ∀ e pointer, (f e).schemaPointer = some pointer →
      e.schemaPointer = some pointer ∨ Leads ctx key pointer) : LeadsAll ctx (m.update key f) := by
  intro other pointer hpointer
  rw [DataMap.pointer?_update] at hpointer
  split at hpointer
  · next hkey =>
      subst hkey
      rcases hf _ pointer hpointer with hold | hleads
      · refine h key pointer ?_
        rw [DataMap.pointer?]
        cases hget : Table.get? m key with
        | none =>
            rw [hget] at hold
            cases hold
        | some old =>
            rw [hget] at hold
            exact hold
      · exact hleads
  · exact h other pointer hpointer

/-! ## Copies -/

/-- A stored template refers to what is offered. -/
theorem Sound.placed (hp : Sound ctx B p nodes) {t : Template}
    (ht : p.templates.template? name = some t) {site : Site} {last : Nat} {other : String}
    (h : other ∈ Node.references [(t.place site last).1]) : Offered ctx B p.templates other :=
  hp.stored name t (Library.template?_mem ht) other (Template.mem_references_place h)

theorem placed_brings {t : Template} (ht : p.templates.template? name = some t) {site : Site}
    (h : (placed t site).Runs p n q) : Brings ctx B p q [] [n] := by
  obtain ⟨rfl, rfl⟩ := runs_placed.mp h
  exact (Brings.counted p _ p.fieldsRequired []).extend fun hq _ hother => hq.placed ht hother

theorem copies_brings {t : Template} {site : Site} {count : Nat}
    (ht : p.templates.template? name = some t) (h : (copies t site count).Runs p made q) :
    Brings ctx B p q [] made := by
  obtain ⟨⟨last, rfl⟩, hmade⟩ := runs_copies h
  refine (Brings.counted p last p.fieldsRequired []).extend fun hq other hother => ?_
  obtain ⟨n, hn, hother⟩ := Node.mem_references_iff.mp hother
  obtain ⟨last', rfl⟩ := hmade n hn
  exact hq.placed ht hother

theorem instantiate_brings {site : Site} {found : Option Node}
    (h : (instantiate name site).Runs p found q) : Brings ctx B p q [] found.toList := by
  rcases runs_instantiate.mp h with ⟨-, rfl, rfl⟩ | ⟨t, n, ht, hn, rfl⟩
  · exact .refl _ []
  · exact placed_brings ht hn

/-! ## Templates -/

theorem Sound.reserve (hp : Sound ctx B p nodes) (hknown : p.templates.knows name = false) :
    Sound ctx B { p with templates := p.templates.reserve name } nodes := by
  have hstored : ∀ {other t}, (other, some t) ∈ p.templates.reserve name →
      (other, some t) ∈ p.templates := by
    intro other t hm
    cases Table.mem_insert hm with
    | inl he => cases he
    | inr hm => exact hm
  have hmono : ∀ {other}, Offered ctx B p.templates other →
      Offered ctx B (p.templates.reserve name) other :=
    fun h => h.mono fun _ => knows_mono (Library.Extends.reserve hknown)
  refine ⟨Table.nodup_insert hp.nodup name none, fun other t hm => hp.filed other t (hstored hm),
    fun other t hm again hagain => ?_, hp.leads, fun other hother => hmono (hp.nodes other hother)⟩
  exact hmono (hp.stored other t (hstored hm) again hagain)

theorem knows_store {other : String} (t : Template) (h : l.knows other = true) :
    (l.store name t).knows other = true := by
  unfold Library.knows Table.has Library.store at *
  rw [Table.get?_insert]
  split
  · rfl
  · exact h

theorem knows_store_self (l : Library) (name : String) (t : Template) :
    (l.store name t).knows name = true := by
  rw [Library.knows, Table.has, Library.store, Table.get?_insert, if_pos rfl]
  rfl

/-- Storing a template that is filed and refers to what is offered is sound. -/
theorem Sound.store (hp : Sound ctx B p nodes) {t : Template} (hfiled : Filed ctx B name t)
    (hsub : Node.references [t.node] ⊆ Node.references nodes) :
    Sound ctx B { p with templates := p.templates.store name t } nodes := by
  have hmono : ∀ {other}, Offered ctx B p.templates other →
      Offered ctx B (p.templates.store name t) other :=
    fun h => h.mono fun _ => knows_store t
  refine ⟨Table.nodup_insert hp.nodup name (some t), fun other u hm => ?_,
    fun other u hm again hagain => hmono ?_, hp.leads,
    fun other hother => hmono (hp.nodes other hother)⟩
  · cases Table.mem_insert hm with
    | inl he =>
        cases he
        exact hfiled
    | inr hm => exact hp.filed other u hm
  · cases Table.mem_insert hm with
    | inl he =>
        cases he
        exact hp.nodes again (hsub hagain)
    | inr hm => exact hp.stored other u hm again hagain

/-- A stored name is not reserved. -/
theorem ne_of_mem_store {t : Template} {other : String} (hn : (Table.names l).Nodup)
    (h : (other, none) ∈ l.store name t) : other ≠ name ∧ (other, none) ∈ l := by
  have hget := Table.get?_of_mem (Table.nodup_insert hn name (some t)) h
  rw [Table.get?_insert] at hget
  split at hget
  · cases hget
  · next hne => exact ⟨Ne.symm hne, Table.mem_of_get? hget⟩

/-! ## Generated nodes -/

/-- A builder brings the nodes of a request out of nothing.  Below the form as a whole
there are some if the schema speaks, and they are of that schema; if there are none,
nothing was done. -/
structure Serves (ctx : Setup) (B : Prop) (build : Builder) : Prop where
  brings : ∀ {r p mapped q}, Comes ctx (Arises ctx) r → (build r).Runs p mapped q →
    Brings ctx B p q [] mapped.toList
  speaks : ∀ {r p mapped q}, (build r).Runs p mapped q → r.isRoot = false →
    Speaks ctx r.schemaPointer → mapped.toList ≠ []
  none : ∀ {r p mapped q}, (build r).Runs p mapped q → r.isRoot = false → mapped.toList = [] → q = p
  isOf : ∀ {r p mapped q}, (build r).Runs p mapped q → r.isRoot = false →
    ∀ n ∈ mapped.toList, IsOf ctx r.schemaPointer n.control

theorem markRequired_brings {required : Bool} (h : (markRequired required nodes).Runs p made q) :
    Brings ctx B p q nodes made := by
  rcases runs_markRequired h with ⟨rfl, rfl⟩ | ⟨rfl, rfl⟩
  · exact .refl _ _
  · refine (Brings.counted p p.lastId true nodes).weaken fun name hname => ?_
    rwa [Node.mem_references_map_modify] at hname
    exact fun _ => rfl

theorem buildProperties_brings (hb : Serves ctx B build) (hr : Comes ctx (Arises ctx) r)
    (hschema : r.Reads ctx "object" schema)
    (h : (buildProperties build r schema r.layout).Runs p made q) : Brings ctx B p q [] made := by
  rcases runs_buildProperties h with ⟨rfl, rfl⟩ | ⟨properties, parts, hproperties, hm, rfl⟩
  · exact .refl _ []
  · refine runs_mapM (R := fun p parts q => Brings ctx B p q [] parts.flatten) ?_ ?_ hm
    · exact fun p => .refl p []
    · intro key hkey p part s parts q hpart hparts
      obtain ⟨mapped, s', required, hbuilt, hmark⟩ := runs_buildProperty hpart
      have hnodes := hb.brings (.property hr hschema hproperties hkey) hbuilt
      exact (hnodes.trans (markRequired_brings hmark)).append hparts

theorem mem_references_storedNode {relative : Bool} {n : Node}
    (h : name ∈ Node.references [(Template.of (storedNode relative n) relative).node]) :
    name ∈ Node.references [n] := by
  rw [Template.references_of] at h
  unfold storedNode at h
  split at h
  · rwa [Node.mem_references_modify] at h
    exact fun _ => rfl
  · exact h

theorem storedNode_type (relative : Bool) (n : Node) :
    (Template.of (storedNode relative n) relative).node.control.type = n.control.type := by
  cases n
  cases relative <;> rfl

theorem storedNode_dataType (relative : Bool) (n : Node) :
    (Template.of (storedNode relative n) relative).node.control.dataType = n.control.dataType := by
  cases n
  cases relative <;> rfl

/-- A template that is asked for is stored under its name if its schema speaks, unless the
name is known already. -/
theorem ensureTemplate_brings (hb : Serves ctx B build) (hr : Comes ctx (Arises ctx) r)
    (ht : r.inTemplate = true) (hfills : Fills ctx name r.schemaPointer) {relative : Bool}
    {u : Unit} (h : (ensureTemplate build name relative r).Runs p u q) :
    Brings ctx B p q [] [] ∧ (Speaks ctx r.schemaPointer → q.templates.knows name = true) := by
  rcases runs_ensureTemplate h with ⟨hknown, rfl⟩ | ⟨hknown, mapped, s, hbuilt, rfl⟩
  · exact ⟨.refl _ [], fun _ => hknown⟩
  have hbrings := hb.brings hr hbuilt
  have hroot := isRoot_template ht
  have hspeaks := hb.speaks hbuilt hroot
  have hof := hb.isOf hbuilt hroot
  unfold settled
  cases hlast : mapped.toList.getLast? with
  | none =>
      -- nothing was built, so the reservation is all that was done
      have hnil := List.getLast?_eq_none_iff.mp hlast
      obtain rfl := hb.none hbuilt hroot hnil
      have hnot : name ∉ Table.names p.templates := by
        rw [← Table.get?_eq_none_iff]
        exact Library.knows_eq_false.mp hknown
      have hsame : (p.templates.reserve name).remove name = p.templates :=
        Table.erase_insert hnot none
      rw [hsame]
      exact ⟨.refl _ [], fun hs => absurd hnil (hspeaks hs)⟩
  | some n =>
      have hn := List.mem_of_getLast? hlast
      refine ⟨⟨(Library.extends_store hknown hbrings.known _).1, fun hp => ?_,
        fun hp other hm => ?_⟩, fun _ => knows_store_self _ _ _⟩
      · refine ((hbrings.sound (hp.reserve hknown)).store (.inr ⟨_, hfills, ?_⟩) ?_).subset
          (List.nil_subset _)
        · exact (hof n hn).congr (storedNode_type relative n) (storedNode_dataType relative n)
        · exact fun other hother => Node.mem_references_of_mem hn (mem_references_storedNode hother)
      · have hs := hp.reserve hknown
        obtain ⟨hne, hm⟩ := ne_of_mem_store (hbrings.sound hs).nodup hm
        cases Table.mem_insert (hbrings.settled hs other hm) with
        | inl he => exact absurd (Prod.mk.inj he).1 hne
        | inr hm => exact hm

/-! ### Arrays -/

variable {array : Control} {bounds : ArrayBounds} {items : List Node}

theorem buildTupleItem_brings (hb : Serves ctx B build) (hr : Comes ctx (Arises ctx) r)
    (hschema : r.Reads ctx "array" schema) {tuple : List Json}
    (htuple : (schema.get? "items").bind Json.arr? = some tuple) {index : Nat}
    (hindex : index < tuple.length) {removable : Bool} {found : Option Node}
    (h : (buildTupleItem build r (itemSite ctx r) bounds removable index).Runs p found q) :
    Brings ctx B p q [] found.toList := by
  rcases runs_buildTupleItem h with ⟨s, u, he, hi⟩ | ⟨mapped, hbuilt, rfl⟩
  · have hstored := (ensureTemplate_brings hb (.tuple hr hschema htuple hindex) rfl
      (.tuple hr hschema htuple hindex) he).1
    exact hstored.trans (instantiate_brings hi)
  · refine (hb.brings (.fixed hr hschema htuple hindex) hbuilt).weaken ?_
    exact Node.references_subset fun n hn => List.mem_of_getLast? (Option.mem_toList.mp hn)

theorem buildTuple_brings (hb : Serves ctx B build) (hr : Comes ctx (Arises ctx) r)
    (hschema : r.Reads ctx "array" schema) {removable : Bool}
    (h : (buildTuple build r (itemSite ctx r) schema bounds removable).Runs p made q) :
    Brings ctx B p q [] made := by
  rcases runs_buildTuple h with ⟨rfl, rfl⟩ | ⟨tuple, parts, htuple, hm, rfl⟩
  · exact .refl _ []
  · refine runs_mapM (R := fun p parts q => Brings ctx B p q [] (parts.filterMap id)) ?_ ?_ hm
    · exact fun p => .refl p []
    · intro index hindex p part s parts q hpart hparts
      have hlt : index < tuple.length :=
        Nat.lt_of_lt_of_le (List.mem_range.mp hindex) (Nat.min_le_right _ _)
      have hsplit : (part :: parts).filterMap id = part.toList ++ parts.filterMap id := by
        cases part <;> rfl
      rw [hsplit]
      exact (buildTupleItem_brings hb hr hschema htuple hlt hpart).append hparts

theorem fillItems_brings {site : Site} {count : Nat}
    (h : (fillItems name site count items).Runs p made q) : Brings ctx B p q items made := by
  rcases runs_fillItems h with ⟨rfl, rfl⟩ | ⟨t, more, ht, hc, rfl⟩
  · exact .refl _ _
  · have hcopies : Brings ctx B p q [] more := copies_brings ht hc
    have hmore := hcopies.frame items
    rwa [List.append_nil] at hmore

theorem references_limitLast (bounds : ArrayBounds) (items : List Node) :
    Node.references (limitLast bounds items) ⊆ Node.references items := by
  intro name h
  unfold limitLast at h
  split at h
  · next last hlast =>
      split at h
      · rw [Node.references_append, List.mem_append, Node.mem_references_modify] at h
        · rcases h with h | h
          · exact Node.references_subset (List.dropLast_subset items) h
          · exact Node.mem_references_of_mem (List.mem_of_getLast? hlast) h
        · exact fun _ => rfl
      · exact h
  · exact h

/-- The control that adds an item is offered the template that its array asks for. -/
theorem withAddControl_brings {site : ArraySite} (hname : Offered ctx B p.templates site.name)
    (h : (withAddControl ctx site schema array bounds items).Runs p made q) :
    Brings ctx B p q items made := by
  rcases runs_withAddControl h with ⟨rfl, rfl⟩ | ⟨label, rfl, rfl⟩
  · exact (Brings.refl _ items).weaken (references_limitLast bounds items)
  · refine (Brings.counted p _ p.fieldsRequired items).extend fun _ other hother => ?_
    rw [addControl, Node.mem_references_mk] at hother
    rcases hother with he | hnone
    · exact Option.some.inj he ▸ hname
    · exact absurd hnone List.not_mem_nil

theorem buildList_brings (hb : Serves ctx B build) (hr : Comes ctx (Arises ctx) r)
    (hschema : r.Reads ctx "array" schema) {keyword : String}
    (hkeyword : listKeyword? schema = some keyword)
    (h : (buildList ctx build r (itemSite ctx r) schema array bounds keyword items).Runs p made q) :
    Brings ctx B p q items made := by
  obtain ⟨s, s', filled, count, u, he, hf, ha⟩ := runs_buildList h
  have hoffers := Offers.list hr hschema hkeyword
  obtain ⟨hstored, hknown⟩ :=
    ensureTemplate_brings hb (.list _ hr hschema hkeyword) rfl (.offered hoffers) he
  have hitems := hstored.frame items
  rw [List.append_nil] at hitems
  have hfilled : Brings ctx B s s' items filled := fillItems_brings hf
  refine (hitems.trans hfilled).trans (withAddControl_brings (.inr ⟨_, hoffers, ?_⟩) ha)
  exact fun hs => knows_mono hfilled.known (hknown hs)

theorem leads_bounds {m : DataMap} (h : LeadsAll ctx m) (key : String) (bounds : ArrayBounds) :
    LeadsAll ctx (m.update key (DataEntry.withBounds bounds)) :=
  h.update fun _ _ hp => .inl hp

theorem buildArray_brings (hb : Serves ctx B build) (hr : Comes ctx (Arises ctx) r)
    (hschema : r.Reads ctx "array" schema)
    (hc : c.layoutPointer = r.layout) (h : (buildArray ctx build r schema c).Runs p n q) :
    ∃ made, n = .mk (boundedControl ctx r schema c) made ∧ Brings ctx B p q [] made := by
  obtain ⟨site, items, made, s, hsite, htuple, rfl, s', rfl, h⟩ := runs_buildArray h
  obtain rfl : site = itemSite ctx r := hsite.trans (arraySite_eq hc)
  have hitems : Brings ctx B p s [] items := buildTuple_brings hb hr hschema htuple
  have hnoted := hitems.trans (Brings.of_eq (q := { s with
      dataMap := s.dataMap.update ((Pointer.listOfItem? (itemSite ctx r).name).getD
        (itemSite ctx r).name) (DataEntry.withBounds (boundsFor ctx r schema c)) }) rfl
    fun hm => leads_bounds hm _ _)
  refine ⟨made, rfl, ?_⟩
  rcases h with ⟨-, rfl, rfl⟩ | ⟨keyword, hkeyword, hl⟩
  · exact hnoted
  · exact hnoted.trans (buildList_brings hb hr hschema hkeyword hl)

/-! ### Nodes -/

theorem referenceControl_reference (ctx : Setup) (r : Request) (c : Control) (name : String) :
    (referenceControl ctx r c name).reference = some name := rfl

/-- The control of a reference is offered the template of its target. -/
theorem buildReference_brings (hb : Serves ctx B build) (hr : Comes ctx (Arises ctx) r)
    (hschema : r.Reads ctx "$ref" schema) {made : Control}
    (h : (buildReference ctx build r c).Runs p made q) :
    made = referenceControl ctx r c (ctx.dataKey r.fullPointer) ∧
      Brings ctx B p q [] [.mk made []] := by
  obtain ⟨rfl, u, he⟩ := runs_buildReference h
  have hoffers := Offers.target hr hschema
  obtain ⟨hstored, hknown⟩ :=
    ensureTemplate_brings hb (.target _ hr hschema) rfl (.offered hoffers) he
  refine ⟨rfl, hstored.extend fun _ other hother => ?_⟩
  rw [Node.mem_references_mk, referenceControl_reference] at hother
  rcases hother with he | hnone
  · exact Option.some.inj he ▸ .inr ⟨_, hoffers, hknown⟩
  · exact absurd hnone List.not_mem_nil

/-- The control of a request has the type and the data of its schema, and no reference. -/
theorem controlFor_isOf (hschema : ctx.resolved.schemaAt? r.schemaPointer = some schema)
    (hdescribed : isDescribed schema = true) {type : String}
    (htype : Schema.controlType? schema [] = some type) (id : Option Nat) :
    IsOf ctx r.schemaPointer (controlFor ctx r schema type id) := by
  refine ⟨schema, hschema, hdescribed, ?_, ?_⟩
  · rw [htype, controlFor, withTitle]
    split <;> rfl
  · rw [controlFor, withTitle]
    split <;> rfl

theorem referenceControl_type (ctx : Setup) (r : Request) (c : Control) (name : String) :
    (referenceControl ctx r c name).type = c.type ∧
      (referenceControl ctx r c name).dataType = c.dataType := by
  simp only [referenceControl]
  split <;> exact ⟨rfl, rfl⟩

theorem complete_brings (hb : Serves ctx B build) (hr : Comes ctx (Arises ctx) r)
    (hschema : ctx.resolved.schemaAt? r.schemaPointer = some schema)
    (htype : c.dataType = dataType? schema) (hc : c.layoutPointer = r.layout)
    (hnone : c.reference = none) {mapped : Mapped Node}
    (h : (complete ctx build r schema c).Runs p mapped q) :
    Brings ctx B p q [] mapped.toList := by
  have hreads : ∀ {type}, c.dataType = some type → r.Reads ctx type schema :=
    fun ht => ⟨hschema, htype.symm.trans ht⟩
  rcases runs_complete h with ⟨ht, children, hchildren, rfl⟩ | ⟨-, options, rfl, rfl⟩ |
      ⟨ht, n, hn, rfl⟩ | ⟨ht, made, hm, rfl⟩
  · rw [hc] at hchildren
    have hmade := buildProperties_brings hb hr (hreads ht) hchildren
    split
    · exact hmade
    · exact hmade.within hnone
  · exact (Brings.refl _ []).within hnone
  · obtain ⟨made, rfl, hmade⟩ := buildArray_brings hb hr (hreads ht) hc hn
    exact hmade.within hnone
  · obtain ⟨-, hmade⟩ := buildReference_brings hb hr (hreads ht) hm
    exact hmade

/-- Below the form as a whole there is one node, with the type and the data of the
control. -/
theorem complete_one (hroot : r.isRoot = false) {mapped : Mapped Node}
    (h : (complete ctx build r schema c).Runs p mapped q) :
    ∃ n, mapped = .one n ∧ n.control.type = c.type ∧ n.control.dataType = c.dataType := by
  rcases runs_complete h with ⟨-, children, -, rfl⟩ | ⟨-, options, rfl, rfl⟩ | ⟨-, n, hn, rfl⟩ |
      ⟨-, made, hm, rfl⟩
  · rw [hroot]
    exact ⟨_, rfl, rfl, rfl⟩
  · exact ⟨_, rfl, rfl, rfl⟩
  · obtain ⟨site, items, made, s, -, -, rfl, -⟩ := runs_buildArray hn
    exact ⟨_, rfl, rfl, rfl⟩
  · obtain ⟨rfl, -⟩ := runs_buildReference hm
    obtain ⟨ht, hd⟩ := referenceControl_type ctx r c (ctx.dataKey r.fullPointer)
    exact ⟨_, rfl, ht, hd⟩

theorem leads_noted {m : DataMap} (hm : LeadsAll ctx m) (hr : Comes ctx (Arises ctx) r)
    {type : String} {id : Option Nat} :
    LeadsAll ctx (noted ctx r schema (controlFor ctx r schema type id) m) := by
  unfold noted
  split
  · next hcond =>
      have htemplate : r.inTemplate = false := by
        simp only [Bool.and_eq_true, Bool.not_eq_true'] at hcond
        exact hcond.2
      refine hm.update fun e pointer hp => .inr (.inr ⟨r, ⟨hr, htemplate, ?_⟩, ?_⟩)
      · rw [controlFor_dataPointer, Option.getD_some]
      · exact (Option.some.inj hp).symm
  · exact hm

theorem buildSchema_brings (hb : Serves ctx B build) (hr : Comes ctx (Arises ctx) r)
    (hschema : ctx.resolved.schemaAt? r.schemaPointer = some schema) {type : String}
    {mapped : Mapped Node} (h : (buildSchema ctx build r schema type).Runs p mapped q) :
    Brings ctx B p q [] mapped.toList := by
  obtain ⟨id, s, hs, hc⟩ := runs_buildSchema h
  have hnoted : Brings ctx B p { s with
      dataMap := noted ctx r schema (controlFor ctx r schema type id) s.dataMap } [] [] := by
    rcases hs with ⟨-, -, rfl⟩ | ⟨-, -, rfl⟩ <;> exact .of_eq rfl fun hm => leads_noted hm hr
  exact hnoted.trans (complete_brings hb hr hschema (controlFor_dataType ctx r schema type id)
    (controlFor_layoutPointer ctx r schema type id) (controlFor_reference ctx r schema type id) hc)

/-- A schema that says enough for a control gets one. -/
theorem buildOne_of_speaks (h : Speaks ctx r.schemaPointer) : ∃ schema type,
    buildOne ctx build r = buildSchema ctx build r schema type := by
  obtain ⟨schema, type, hschema, hdescribed, htype⟩ := h
  refine ⟨schema, type, ?_⟩
  rw [buildOne, hschema, Option.filter_some, if_pos hdescribed]
  dsimp only
  rw [htype]

theorem buildSchema_one (hroot : r.isRoot = false) {type : String} {mapped : Mapped Node}
    (h : (buildSchema ctx build r schema type).Runs p mapped q) :
    ∃ id n, mapped = .one n ∧ n.control.type = (controlFor ctx r schema type id).type ∧
      n.control.dataType = (controlFor ctx r schema type id).dataType := by
  obtain ⟨id, s, -, hc⟩ := runs_buildSchema h
  exact ⟨id, complete_one hroot hc⟩

/-- **The walk.**  All generated nodes refer to what is offered. -/
theorem serves_buildNode (fuel : Nat) : Serves ctx B (buildNode ctx fuel) := by
  refine buildNode_induction (P := Serves ctx B) ?_ ?_ fuel
  · exact ⟨fun _ h => absurd h not_runs_failure, fun h => absurd h not_runs_failure,
      fun h => absurd h not_runs_failure, fun h => absurd h not_runs_failure⟩
  · intro build hb
    constructor
    · intro r p mapped q hr h
      rcases runs_buildOne h with ⟨rfl, rfl⟩ | ⟨schema, type, hschema, -, -, hs⟩
      · exact .refl _ []
      · exact buildSchema_brings hb hr hschema hs
    · intro r p mapped q h hroot hspeaks
      obtain ⟨schema, type, he⟩ : ∃ schema type,
          buildOne ctx build r = buildSchema ctx build r schema type := buildOne_of_speaks hspeaks
      obtain ⟨id, n, rfl, -⟩ := buildSchema_one hroot (he ▸ h)
      exact List.cons_ne_nil n []
    · intro r p mapped q h hroot hnil
      rcases runs_buildOne h with ⟨-, rfl⟩ | ⟨schema, type, -, -, -, hs⟩
      · rfl
      · obtain ⟨id, n, rfl, -⟩ := buildSchema_one hroot hs
        cases hnil
    · intro r p mapped q h hroot n hn
      rcases runs_buildOne h with ⟨rfl, rfl⟩ | ⟨schema, type, hschema, hdescribed, htype, hs⟩
      · exact absurd hn List.not_mem_nil
      · obtain ⟨id, m, rfl, ht, hd⟩ := buildSchema_one hroot hs
        rw [List.mem_singleton.mp hn]
        exact (controlFor_isOf hschema hdescribed htype id).congr ht hd

theorem serves_run : Serves ctx B (run ctx) := serves_buildNode _

end Generate

end SchemaForm
