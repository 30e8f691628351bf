/-
Which templates are stored for the references of a layout.

A control that adds an item, or stands for the target of a reference, is laid out before it
is known whether there is a template for it.  There is one if the schema that it was offered
for says enough for a control; and a template that is there is of a schema that does, which
may be another one that was asked for under the name, or of the entries of a description:

    the schema speaks  →  stored
    stored  →  the schema speaks  ∨  the template is lent

(`Form.references_stored`).  Where the items of all arrays say enough and no reference is
left, every name of a control has a template (`Form.names_stored`).  An array that is
composed from the entries of a description refers to a template only when it has one.
Composing brings its nodes out of those of the children (`Compose.entries_brings`), as
generating brings them out of nothing (`Generate.serves_run`).
-/
import SchemaForm.Proofs.Layout.Identity
import SchemaForm.Proofs.Layout.Offers
import SchemaForm.Proofs.Layout.Standing
import SchemaForm.Proofs.Layout.Unreferenced

namespace SchemaForm

open Build

namespace Generate

variable {ctx : Setup} {B : Prop} {p q : Progress} {c : Control} {n : Node} {m : DataMap}
  {key pointer : String}

/-! ## Bound entries -/

theorem Leads.arises (h : Leads ctx (ctx.dataKey (c.dataPointer.getD "")) pointer) :
    Arises ctx (boundRequest pointer c) := by
  rcases h with hfound | ⟨r, hr, rfl⟩
  · exact .found hfound
  · exact .recorded (fun _ hs => hs) hr

theorem LeadsAll.same {m' : DataMap} (h : LeadsAll ctx m) (hsame : m.SamePointers m') :
    LeadsAll ctx m' :=
  fun other pointer hp => h other pointer (hsame other ▸ hp)

/-- A schema pointer that is looked up leads to the data, and keeps doing so. -/
theorem schemaPointerFor_leads (hp : LeadsAll ctx p.dataMap) {found : Option String}
    (h : (Compose.schemaPointerFor ctx key).Runs p found q) :
    LeadsAll ctx q.dataMap ∧ ∀ pointer, found = some pointer → Leads ctx key pointer := by
  rcases Compose.runs_schemaPointerFor h with ⟨hrecorded, rfl⟩ | ⟨hfound, rfl⟩
  · exact ⟨hp, fun pointer he => hp key pointer (hrecorded.trans he)⟩
  · have hleads : ∀ pointer, found = some pointer → Leads ctx key pointer :=
      fun pointer he => .inl (hfound.trans he)
    exact ⟨hp.update fun _ pointer he => .inr (hleads pointer he), hleads⟩

theorem expandBound_brings {depth : Nat} (hr : Arises ctx (boundRequest pointer c))
    (htyped : Compose.Typed ctx (some pointer) c)
    (hc : c.layoutPointer = Pointer.level depth) (h : (expandBound ctx pointer c).Runs p n q) :
    Brings ctx B p q [.mk c []] [n] := by
  have hcomes : Comes ctx (Arises ctx) (boundRequest pointer c) := .start hr
  have hlayout : (boundRequest pointer c).layout = c.layoutPointer :=
    (layout_of_level hc).trans hc.symm
  have hreads : ∀ {schema type}, ctx.resolved.schemaAt? pointer = some schema →
      c.dataType = some type → (boundRequest pointer c).Reads ctx type schema :=
    fun hschema ht => ⟨hschema, (htyped _ _ rfl hschema).symm.trans ht⟩
  rcases runs_expandBound h with ⟨rfl, rfl⟩ | ⟨schema, hschema, ht, -, items, hitems, rfl⟩ |
      ⟨schema, hschema, ht, harray⟩ | ⟨schema, hschema, ht, made, hmade, rfl⟩
  · exact .refl _ _
  · rw [← hlayout] at hitems
    exact (buildProperties_brings serves_run hcomes (hreads hschema ht) hitems).around rfl
  · obtain ⟨made, rfl, hmade⟩ :=
      buildArray_brings (B := B) serves_run hcomes (hreads hschema ht) hlayout.symm harray
    exact hmade.around rfl
  · exact (buildReference_brings serves_run hcomes (hreads hschema ht) hmade).2.widen
      (List.nil_subset _)

end Generate

namespace Compose

open Generate (Brings Sound Offered Filed LeadsAll)

variable {ctx : Setup} {B : Prop} {p q : Progress} {g : Grouping} {array : Control}
  {bounds : ArrayBounds} {existing depth : Nat} {dataPointer name : String} {t : Template}
  {children items made : List Node} {n : Node}

/-! ## Items of arrays -/

theorem regroup_brings {removable : Bool}
    (h : (regroup ctx g removable bounds children).Runs p made q) :
    Brings ctx B p q children made := by
  obtain ⟨kept, rfl, h⟩ := runs_regroup h
  have hkept : Node.references ((children.filter (!g.holds ·)).map (·.modify
      (keptItem removable))) ⊆ Node.references children := by
    intro name hname
    rw [Node.mem_references_map_modify] at hname
    · exact Node.references_subset (List.filter_subset_self _) hname
    · exact fun _ => rfl
  rcases h with ⟨-, rfl, rfl⟩ | ⟨kind, rfl, rfl⟩
  · exact (Brings.refl _ children).weaken hkept
  · refine (Brings.counted p _ p.fieldsRequired children).weaken fun name hname => ?_
    rw [Node.references_append, List.mem_append, gathered, Node.mem_references_mk,
      Node.references_mapAll] at hname
    · rcases hname with hname | hname | hname
      · exact hkept hname
      · cases hname
      · exact Node.references_subset (List.filter_subset_self _) hname
    · exact fun _ => rfl

theorem asItems_brings (h : (asItems ctx g array bounds children).Runs p made q) :
    Brings ctx B p q children made := by
  rcases runs_asItems h with ⟨only, orderable, rfl, rfl, rfl⟩ | h
  · refine (Brings.refl _ [only]).weaken fun name hname => ?_
    rwa [Node.mem_references_modify] at hname
    exact fun _ => rfl
  · exact regroup_brings h

theorem references_templateOf (item layoutBase : String) (relative : Bool) (last : Node) :
    Node.references [(templateOf item layoutBase relative last).node] ⊆
      Node.references [last] := by
  intro name hname
  have hmodified : name ∈ Node.references [last.modify ({ · with recursive := relative })] := by
    unfold templateOf at hname
    dsimp only at hname
    rw [Template.references_of] at hname
    split at hname
    · rwa [Node.references_map] at hname
      exact fun _ => rfl
    · exact hname
  rwa [Node.mem_references_modify] at hmodified
  exact fun _ => rfl

theorem references_offered (ht : offered? ctx g array items = some t) :
    Node.references [t.node] ⊆ Node.references items := by
  obtain ⟨last, hlast, rfl⟩ := Option.map_eq_some_iff.mp ht
  exact fun name hname => Node.mem_references_of_mem (List.mem_of_getLast? hlast)
    (references_templateOf _ _ _ _ hname)

/-- The template of an array refers to what its items do. -/
theorem storeOffered_brings (hB : B) {addable : Bool} {u : Unit}
    (h : (storeOffered name addable (offered? ctx g array items)).Runs p u q) :
    Brings ctx B p q items items := by
  rcases runs_storeOffered h with ⟨rfl, -⟩ | ⟨hname, t, ht, rfl⟩
  · exact .refl _ _
  · refine ⟨.store hname t, fun hp => hp.store (.inl hB) (references_offered ht),
      fun hp other hm => ?_⟩
    exact (Generate.ne_of_mem_store hp.nodup hm).2

/-- Where items may be added and there is a template, its name is known. -/
theorem storeOffered_knows {offered : Option Template} {u : Unit}
    (h : (storeOffered name true offered).Runs p u q)
    (ht : q.templates.template? name = some t ∨ offered = some t) :
    q.templates.knows name = true := by
  rcases runs_storeOffered h with ⟨rfl, hknown⟩ | ⟨-, t, -, rfl⟩
  · rcases hknown rfl with hknown | hnone
    · exact hknown
    · have hstored := ht.resolve_right fun hs => by
        rw [hnone] at hs
        cases hs
      exact Option.isSome_iff_exists.mpr ⟨_, Library.template?_eq_some.mp hstored⟩
  · exact Generate.knows_store_self _ _ _

theorem fillFrom_brings (hB : B)
    (ht : p.templates.template? name = some t ∨ Node.references [t.node] ⊆ Node.references items)
    (hknown : array.flag "addable" true = true → p.templates.knows name = true)
    (h : (fillFrom ctx g array bounds existing dataPointer name t items).Runs p made q) :
    Brings ctx B p q items made := by
  obtain ⟨count, more, s, hcopies, h⟩ := runs_fillFrom h
  have hfilled : Brings ctx B p s items (items ++ more) := by
    obtain ⟨⟨last, rfl⟩, hmore⟩ := runs_copies hcopies
    refine (Brings.counted p last p.fieldsRequired items).extend fun hs other hother => ?_
    obtain ⟨n, hn, hother⟩ := Node.mem_references_iff.mp hother
    obtain ⟨last', rfl⟩ := hmore n hn
    rcases ht with hstored | hsub
    · exact hs.placed hstored hother
    · exact hs.nodes other (hsub (Template.mem_references_place hother))
  rcases h with ⟨rfl, rfl⟩ | ⟨haddable, label, rfl, rfl⟩
  · exact hfilled
  · have hcounted : Brings ctx B s { s with lastId := s.lastId + 1 } _ (items ++ more) :=
      .counted s _ s.fieldsRequired _
    refine (hfilled.trans hcounted).extend fun _ other hother => ?_
    rw [Generate.addControl, Node.mem_references_mk] at hother
    rcases hother with he | hnone
    · obtain rfl := Option.some.inj he
      exact .inl ⟨hB, Generate.knows_mono hfilled.known (hknown haddable)⟩
    · exact absurd hnone List.not_mem_nil

theorem fillArray_brings (hB : B)
    (h : (fillArray ctx g array bounds existing dataPointer items).Runs p made q) :
    Brings ctx B p q items made := by
  obtain ⟨s, u, hs, h⟩ := runs_fillArray h
  have hstored : Brings ctx B p s items items := storeOffered_brings hB hs
  rcases h with ⟨rfl, rfl⟩ | ⟨t, ht, hfill⟩
  · exact hstored
  · refine hstored.trans (fillFrom_brings hB (ht.imp_right references_offered) ?_ hfill)
    intro haddable
    rw [haddable] at hs
    exact storeOffered_knows hs ht

theorem expandArray_brings (hB : B) {made : Node}
    (h : (expandArray ctx bounds existing n).Runs p made q) : Brings ctx B p q [n] [made] := by
  obtain ⟨items, s, filled, hitems, hfill, rfl⟩ := runs_expandArray h
  have hnoted : Brings ctx B p { p with
      dataMap := p.dataMap.update (groupingFor ctx n.control).key fun e =>
        { e with inputType := some "section" } } n.items n.items :=
    .of_eq rfl fun hm => hm.same (.update _ _ fun _ => rfl)
  cases n with
  | mk c children =>
      exact ((hnoted.trans (asItems_brings hitems)).trans (fillArray_brings hB hfill)).around rfl

/-! ## Entries -/

theorem typeChild_reference (container : String) (c : Control) :
    (typeChild ctx container (.mk c [])).control.reference = c.reference := by
  simp only [typeChild, Node.modify, Node.control]
  by_cases ht : c.type = "" <;> by_cases hp : (c.dataPointer.isNone && container == "array") = true
  all_goals simp [ht, hp, setType]

theorem mem_references_typeChildren {c : Control} :
    name ∈ Node.references [typeChildren ctx (.mk c items)] ↔
      c.reference = some name ∨ name ∈ Node.references items := by
  rw [typeChildren, Node.withItems, Node.mem_references_mk]
  refine or_congr_right (Node.mem_references_map_modify fun child => ?_)
  exact typeChild_reference c.type child

theorem bindNode_brings {isContainer : Bool} (hB : isContainer = true → B)
    (hn : n.control.layoutPointer = Pointer.level depth) (hp : Sound ctx B p [n]) {made : Node}
    (h : (bindNode ctx isContainer n).Runs p made q) : Brings ctx B p q [n] [made] := by
  obtain ⟨c, found, bounds, existing, s₁, s, hd, -, htyped', -, ht, hfound, hsame, h⟩ :=
    runs_bindNode h
  obtain ⟨hleads, harises⟩ := Generate.schemaPointerFor_leads hp.leads hfound
  have htyped : Brings ctx B p s [n] [typeChildren ctx (.mk c n.items)] := by
    refine (Brings.of_eq ht fun _ => hleads.same hsame).weaken fun name hname => ?_
    rw [mem_references_typeChildren, hd.reference] at hname
    cases n with
    | mk c' items => exact Node.mem_references_mk.mpr hname
  refine htyped.trans ?_
  rcases runs_fillBound h with ⟨rfl, rfl⟩ | ⟨hcontainer, b, -, hexpand⟩ |
      ⟨-, pointer, rfl, hexpand⟩
  · exact .refl _ _
  · exact expandArray_brings (hB hcontainer) hexpand
  · have harise : Generate.Arises ctx (Generate.boundRequest pointer c) := by
      refine Generate.Leads.arises ?_
      rw [hd.dataPointer]
      exact harises pointer rfl
    refine (Generate.expandBound_brings harise htyped' (hd.layoutPointer.trans hn) hexpand).widen ?_
    intro name hname
    rw [mem_references_typeChildren]
    exact (Node.mem_references_mk.mp hname).imp_right fun hnone => absurd hnone List.not_mem_nil

theorem finishFree_references (isContainer : Bool) (n : Node) :
    Node.references [finishFree ctx isContainer n] ⊆ Node.references [n] := by
  intro name hname
  have hcases : finishFree ctx isContainer n = n ∨ _ := finishFree_cases isContainer n
  rcases hcases with hn | ⟨c, hc, hn⟩
  · rwa [hn] at hname
  · rw [hn, mem_references_typeChildren, hc.reference] at hname
    cases n with
    | mk c' items => exact Node.mem_references_mk.mpr hname

/-- An entry brings its node out of those of its children. -/
theorem composeEntry_brings {item : Json} (children : Option (List Node)) {pointer : String}
    (hB : children.isSome = true → B) (hdepth : Pointer.genericLayout pointer = Pointer.level depth)
    (hp : Sound ctx B p (children.getD [])) {mapped : Mapped Node}
    (h : (composeEntry ctx item children pointer).Runs p mapped q) :
    Brings ctx B p q (children.getD []) mapped.toList := by
  obtain ⟨s, rfl, h⟩ := runs_composeEntry h
  have hcounted : Brings ctx B p { p with lastId := p.lastId + 1 } (children.getD [])
      (children.getD []) := .counted p _ p.fieldsRequired _
  have htitled : ∀ {q made}, Brings ctx B p q (children.getD []) [made] →
      Brings ctx B p q (children.getD []) [made.modify Generate.withTitle] := by
    refine fun hmade => hmade.weaken fun name hname => ?_
    rwa [Node.mem_references_modify Generate.withTitle_reference] at hname
  rcases h with ⟨-, rfl, rfl⟩ | ⟨parts, n, -, rfl, h⟩
  · exact hcounted.weaken (List.nil_subset _)
  · have hentry := hcounted.within (c := (entryNode parts (children.getD []) pointer
      (p.lastId + 1)).control) rfl
    rcases h with ⟨-, hwhole⟩ | ⟨-, made, -, hbind, rfl⟩ | ⟨rfl, rfl⟩
    · have hmade := Generate.serves_run.brings (B := B) (.start (.whole _)) hwhole
      exact (hcounted.weaken (List.nil_subset _)).trans hmade
    · have hlevel : (entryNode parts (children.getD []) pointer
          (p.lastId + 1)).control.layoutPointer = Pointer.level depth := hdepth
      exact htitled (hentry.trans (bindNode_brings hB hlevel (hentry.sound hp) hbind))
    · exact htitled (hentry.weaken (finishFree_references _ _))

mutual

theorem entry_brings (entry : Entry) {above : String} {index depth : Nat} {p q : Progress}
    {mapped : Mapped Node}
    (habove : Pointer.anyItem (Pointer.genericLayout above) = Pointer.level depth)
    (hbranch : (∃ item children, entry = .branch item children) → B) (hp : Sound ctx B p [])
    (h : (Entry.map (step ctx) above index entry).Runs p mapped q) :
    Brings ctx B p q [] mapped.toList := by
  match entry with
  | .leaf item =>
      rw [Entry.map] at h
      exact composeEntry_brings none (fun hsome => absurd hsome Bool.false_ne_true)
        ((Pointer.genericLayout_item above index).trans habove) hp h
  | .branch item children =>
      simp only [Entry.map, runs_bind] at h
      obtain ⟨built, s, hbuilt, h⟩ := h
      have hB := hbranch ⟨item, children, rfl⟩
      have hdepth := (Pointer.genericLayout_item above index).trans habove
      have hbelow : Pointer.anyItem (Pointer.genericLayout (Pointer.item above index ++ "/items")) =
          Pointer.level (depth + 1) := by
        rw [Pointer.genericLayout_items, hdepth]
        rfl
      have hchildren := entries_brings children hbelow (fun _ => hB) hp hbuilt
      exact hchildren.trans (composeEntry_brings (some built) (fun _ => hB) hdepth
        (hchildren.sound hp) h)

theorem entries_brings (entries : List Entry) {above : String} {index depth : Nat}
    {p q : Progress} {made : List Node}
    (habove : Pointer.anyItem (Pointer.genericLayout above) = Pointer.level depth)
    (hbranch : (∃ item children, Entry.branch item children ∈ entries) → B)
    (hp : Sound ctx B p []) (h : (Entry.mapAll (step ctx) above index entries).Runs p made q) :
    Brings ctx B p q [] made := by
  match entries with
  | [] =>
      simp only [Entry.mapAll, runs_pure] at h
      obtain ⟨rfl, rfl⟩ := h
      exact .refl _ _
  | entry :: rest =>
      simp only [Entry.mapAll, runs_bind, runs_pure] at h
      obtain ⟨mapped, s, hmapped, more, s', hmore, rfl, rfl⟩ := h
      have hfirst := entry_brings entry habove
        (fun ⟨item, children, he⟩ => hbranch ⟨item, children, he ▸ List.mem_cons_self⟩) hp hmapped
      have hrest := entries_brings rest habove
        (fun ⟨item, children, hm⟩ => hbranch ⟨item, children, List.mem_cons_of_mem _ hm⟩)
        ((hfirst.sound hp).subset (List.nil_subset _)) hmore
      exact hfirst.append hrest

end

/-! ## Whole layouts -/

theorem topControl_reference (c : Control) : (topControl ctx c).reference = c.reference := by
  unfold topControl
  split <;> rfl

theorem layout_brings {entries : List Json}
    (hB : (∃ item children, Entry.branch item children ∈ Entry.ofItems entries) → B)
    (hp : Sound ctx B p []) (h : (layout ctx entries).Runs p made q) :
    ∃ s nodes, Brings ctx B p s [] nodes ∧ Node.references made = Node.references nodes ∧
      q.templates = s.templates.mapControls (withTitleMap ctx.options.flatList) := by
  obtain ⟨nodes, s, submitted, s', hnodes, hsubmit, rfl, rfl⟩ := runs_layout h
  have htop : Brings ctx B p s [] (nodes.map (·.modify (topControl ctx))) := by
    have hdepth : Pointer.anyItem (Pointer.genericLayout "") = Pointer.level 0 := by
      rw [Pointer.genericLayout_empty]
      rfl
    refine (entries_brings _ hdepth hB hp hnodes).weaken fun name hname => ?_
    rwa [Node.mem_references_map_modify topControl_reference] at hname
  have hf := withTitleMap_same Control.reference (fun _ _ => rfl) ctx.options.flatList
  refine ⟨s', submitted, htop.trans ?_, Node.references_mapAll hf submitted, rfl⟩
  rcases runs_withSubmit hsubmit with ⟨rfl, rfl⟩ | ⟨rfl, rfl⟩
  · exact .refl _ _
  · refine (Brings.counted s _ s.fieldsRequired _).extend fun _ name hname => ?_
    rw [submitControl, Node.mem_references_mk] at hname
    rcases hname with hnone | hnone
    · cases hnone
    · exact absurd hnone List.not_mem_nil

end Compose

/-! ## Items that say enough -/

open Generate (Speaks Offers dataType? listKeyword? isDescribed)

/-- The schema of the list items of every array says enough for a control. -/
def Setup.ItemsSpeaking (ctx : Setup) : Prop :=
  ∀ pointer schema keyword, ctx.resolved.schemaAt? pointer = some schema →
    dataType? schema = some "array" → listKeyword? schema = some keyword →
    Speaks ctx (ctx.schemaKey (pointer ++ "/" ++ keyword))

/-- Without references the schema of list items is always one that says enough. -/
theorem Generate.Offers.speaks {ctx : Setup} {name pointer : String} (h : Offers ctx name pointer)
    (hplain : ctx.Unreferenced) (hitems : ctx.ItemsSpeaking) : Speaks ctx pointer := by
  cases h with
  | list _ hreads hkeyword => exact hitems _ _ _ hreads.found hreads.dataType hkeyword
  | target _ hreads => exact absurd hreads.dataType (hplain.typed _ _ hreads.found)

/-- The value of the keyword for list items says enough for a control. -/
def Json.itemSpeaks (schema : Json) : Bool :=
  (listKeyword? schema).all fun keyword => (schema.get? keyword).any fun item =>
    isDescribed item && (Schema.controlType? item []).isSome

/-- No rule moves schema pointers, and no step down in the schema is a position, and the list
items of every array in it say enough. -/
def Setup.itemsSpeak (ctx : Setup) : Bool :=
  ctx.resolved.schemaFolds.isEmpty && ctx.resolved.schema.arr?.isNone &&
    decide (ctx.resolved.schema.Everywhere Json.Named) &&
    decide (ctx.resolved.schema.Everywhere fun members =>
      dataType? (.obj members) = some "array" → (Json.obj members).itemSpeaks = true)

theorem Generate.child_of_listKeyword {schema : Json} {keyword : String}
    (h : listKeyword? schema = some keyword) (pointer : String) :
    pointer ++ "/" ++ keyword = Pointer.child pointer keyword := by
  have hescape : Pointer.escape keyword = keyword := by
    unfold listKeyword? at h
    split at h
    · split at h
      · obtain rfl := Option.some.inj h
        decide
      · cases h
    · obtain rfl := Option.some.inj h
      decide
    · cases h
  rw [Pointer.child, hescape]

theorem Setup.itemsSpeaking_of {ctx : Setup} (hlacks : ctx.lacksReferences = true)
    (h : ctx.itemsSpeak = true) : ctx.ItemsSpeaking := by
  simp only [itemsSpeak, Bool.and_eq_true, List.isEmpty_iff, Option.isNone_iff_eq_none,
    decide_eq_true_iff] at h
  obtain ⟨⟨⟨hfolds, hroot⟩, hnamed⟩, hitems⟩ := h
  intro pointer schema keyword hschema htype hkeyword
  obtain ⟨path, hpath, hfollow⟩ := followed_of hlacks hschema
  cases schema with
  | obj members =>
      have hspeaks := (hitems.follow hfollow).1 htype
      simp only [Json.itemSpeaks, hkeyword, Option.all_some, Option.any_eq_true,
        Bool.and_eq_true] at hspeaks
      obtain ⟨item, hitem, hdescribed, hcontrol⟩ := hspeaks
      obtain ⟨type, hcontrol⟩ := Option.isSome_iff_exists.mp hcontrol
      have hbelow : ctx.resolved.schema.follow? (path ++ [keyword]) = some item :=
        Schema.follow?_concat hfollow (Schema.follow?_cons (Schema.step?_of_get? hitem) [])
      have hkey : ctx.schemaKey (pointer ++ "/" ++ keyword) =
          Pointer.ofSegments (path ++ [keyword]) := by
        rw [Generate.child_of_listKeyword hkeyword, schemaKey, hfolds, Pointer.shorten_nil,
          Pointer.toGeneric, Pointer.segments?_child hpath]
        exact congrArg Pointer.ofSegments
          (Pointer.genericSegments_of_keys _ _ (hnamed.follow_named hroot hbelow))
      refine ⟨item, type, ?_, hdescribed, hcontrol⟩
      rw [hkey, Resolved.schemaAt?, Json.at?_ofSegments, hbelow, Option.some_or]
  | _ => cases htype

/-! ## Forms -/

namespace Form

open Generate (Sound Fills IsOf)

/-- The description has an entry with entries of its own. -/
def Nested (layout : Option Json) : Prop :=
  ∃ entries item children, entriesOf layout = .ok entries ∧
    Entry.branch item children ∈ Entry.ofItems entries

theorem not_nested_none : ¬Nested none := by
  rintro ⟨entries, item, children, hentries, hm⟩
  obtain rfl : [Json.str "*"] = entries := Except.ok.inj hentries
  rcases List.mem_singleton.mp hm with hleaf
  cases hleaf

/-- There is a template under the name. -/
def Stored (form : Form) (name : String) : Prop :=
  (form.progress.templates.template? name).isSome = true

/-- A template under the name may be one of another schema than the one at the pointer, or
made of the entries of a description. -/
def Lent (form : Form) (layout : Option Json) (name pointer : String) (t : Template) : Prop :=
  Nested layout ∨ ∃ other, other ≠ pointer ∧ Fills form.setup name other ∧
    IsOf form.setup other t.node.control

/-- A name is expanded wherever it is if there is a template under it. -/
theorem instantiate_isSome (form : Form) (name : String) (site : Site) :
    (form.instantiate name site).1.isSome = true ↔ Stored form name := by
  rw [instantiate, Stored]
  cases form.progress.templates.template? name <;> rfl

/-- Before anything is built everything is as it should be. -/
theorem sound_start (ctx : Setup) (B : Prop) : Sound ctx B {} [] := by
  refine ⟨List.nodup_nil, ?_, ?_, fun _ _ hp => ?_, ?_⟩
  · exact fun _ _ hm => absurd hm List.not_mem_nil
  · exact fun _ _ hm => absurd hm List.not_mem_nil
  · cases hp
  · exact fun _ hm => absurd hm List.not_mem_nil

/-- What a form refers to and what it has stored, before the title maps are added. -/
theorem compile_sound {options : FormOptions} {widgets : Registry}
    {schema layout data : Option Json} {form : Form}
    (h : compile options widgets schema layout data = .ok form) :
    ∃ s nodes, Sound form.setup (Nested layout) s nodes ∧
      (∀ name, (name, none) ∉ s.templates) ∧
      Node.references form.layout = Node.references nodes ∧
      form.progress.templates =
        s.templates.mapControls (Compose.withTitleMap form.setup.options.flatList) := by
  obtain ⟨document, entries, -, hentries, -, hrun⟩ := compile_ok h
  have hstart : Sound form.setup (Nested layout) {} [] := sound_start _ _
  obtain ⟨s, nodes, hbrings, hreferences, htemplates⟩ := Compose.layout_brings
    (fun ⟨item, children, hm⟩ => ⟨entries, item, children, hentries, hm⟩) hstart hrun
  refine ⟨s, nodes, hbrings.sound hstart, fun name hm => ?_, hreferences, htemplates⟩
  exact absurd (hbrings.settled hstart name hm) List.not_mem_nil

section

variable {options : FormOptions} {widgets : Registry} {schema layout data : Option Json}
  {form : Form}

/-- The reference of a control is that of a template that was made of entries, or it was
offered for a schema, and there is a template if that speaks. -/
theorem reference_offered (h : compile options widgets schema layout data = .ok form) {c : Control}
    (hc : c ∈ Node.controlsAll form.layout) {name : String} (hname : c.reference = some name) :
    (Nested layout ∧ Stored form name) ∨ ∃ pointer, Offers form.setup name pointer ∧
      (Speaks form.setup pointer → Stored form name) := by
  obtain ⟨s, nodes, hsound, hnone, hreferences, htemplates⟩ := compile_sound h
  have hstored : s.templates.knows name = true → Stored form name := by
    intro hknown
    obtain ⟨entry, hentry⟩ := Option.isSome_iff_exists.mp hknown
    cases entry with
    | none => exact absurd (Table.mem_of_get? hentry) (hnone name)
    | some t =>
        rw [Stored, htemplates, Library.template?_mapControls,
          Library.template?_eq_some.mpr hentry]
        rfl
  have hmem : name ∈ Node.references nodes :=
    hreferences ▸ Node.mem_references.mpr ⟨c, hc, hname⟩
  exact (hsound.nodes name hmem).imp (.imp_right hstored)
    fun ⟨pointer, hoffers, hknown⟩ => ⟨pointer, hoffers, hstored ∘ hknown⟩

/-- A template is made of entries, or it is of a schema that was asked for under its name. -/
theorem template_filed (h : compile options widgets schema layout data = .ok form) {name : String}
    {t : Template} (ht : form.progress.templates.template? name = some t) :
    Generate.Filed form.setup (Nested layout) name t := by
  obtain ⟨s, nodes, hsound, -, -, htemplates⟩ := compile_sound h
  rw [htemplates, Library.template?_mapControls, Option.map_eq_some_iff] at ht
  obtain ⟨first, hfirst, rfl⟩ := ht
  refine (hsound.filed name first (Library.template?_mem hfirst)).imp_right ?_
  rintro ⟨pointer, hfills, hof⟩
  refine ⟨pointer, hfills, ?_⟩
  rw [Node.control_map]
  exact hof.congr (Compose.withTitleMap_same Control.type (fun _ _ => rfl) _ _)
    (Compose.withTitleMap_same Control.dataType (fun _ _ => rfl) _ _)

/-- **References and templates.**  For a control of a layout with a reference there is a
template if the schema it is offered for says enough for a control, and only if that or the
template is lent; and with a template it is expanded wherever it is. -/
theorem references_stored (h : compile options widgets schema layout data = .ok form) {c : Control}
    (hc : c ∈ Node.controlsAll form.layout) {name : String} (hname : c.reference = some name) :
    ((Nested layout ∧ Stored form name) ∨ ∃ pointer, Offers form.setup name pointer ∧
      (Speaks form.setup pointer → Stored form name) ∧
      ∀ t, form.progress.templates.template? name = some t →
        Speaks form.setup pointer ∨ Lent form layout name pointer t) ∧
    ∀ site, (form.instantiate name site).1.isSome = true ↔ Stored form name := by
  refine ⟨(reference_offered h hc hname).imp_right ?_, form.instantiate_isSome name⟩
  rintro ⟨pointer, hoffers, hstored⟩
  refine ⟨pointer, hoffers, hstored, fun t ht => ?_⟩
  rcases template_filed h ht with hnested | ⟨other, hfills, hof⟩
  · exact .inr (.inl hnested)
  · by_cases he : other = pointer
    · exact .inl (he ▸ hof.speaks)
    · exact .inr (.inr ⟨other, he, hfills, hof⟩)

/-- **Names that are stored.**  Without references, and where the items of all arrays say
enough for a control, every name that a control has is that of a template. -/
theorem names_stored (h : compile options widgets schema layout data = .ok form)
    (hplain : form.setup.Unreferenced) (hitems : form.setup.ItemsSpeaking) {c : Control}
    (hc : c ∈ Node.controlsAll form.layout) {name : String} (hname : c.reference = some name)
    (site : Site) : (form.instantiate name site).1.isSome = true := by
  rw [instantiate_isSome]
  rcases reference_offered h hc hname with ⟨-, hstored⟩ | ⟨pointer, hoffers, hstored⟩
  · exact hstored
  · exact hstored (hoffers.speaks hplain hitems)

end

/-- The names that the layout of a schema refers to, and whether there are templates under
them. -/
def offeredNames (schema : Json) : List (String × Bool) :=
  match compile {} [] (some schema) none none with
  | .ok form => (Node.references form.layout).map fun name =>
      (name, (form.progress.templates.template? name).isSome)
  | .error _ => []

theorem mem_offeredNames {schema : Json} {name : String} {stored : Bool}
    (h : (name, stored) ∈ offeredNames schema) :
    ∃ form c, compile {} [] (some schema) none none = .ok form ∧
      c ∈ Node.controlsAll form.layout ∧ c.reference = some name ∧
      (form.progress.templates.template? name).isSome = stored := by
  unfold offeredNames at h
  split at h
  · next form hform =>
      obtain ⟨other, hother, he⟩ := List.mem_map.mp h
      obtain ⟨rfl, hstored⟩ := Prod.mk.inj he
      obtain ⟨c, hc, hreference⟩ := Node.mem_references.mp hother
      exact ⟨form, c, hform, hc, hreference, hstored⟩
  · exact absurd h List.not_mem_nil

theorem references_stored_tags :
    ∃ form c pointer, compile {} [] (some tagsSchema) none none = .ok form ∧
      c ∈ Node.controlsAll form.layout ∧ c.reference = some "/tags/-" ∧
      Offers form.setup "/tags/-" pointer ∧ Speaks form.setup pointer ∧ Stored form "/tags/-" ∧
      ∀ site, (form.instantiate "/tags/-" site).1.isSome = true := by
  have hcompiled : (compile {} [] (some tagsSchema) none none).toOption.any (fun form =>
      form.setup.lacksReferences && form.setup.itemsSpeak &&
        (Node.controlsAll form.layout).any (·.reference == some "/tags/-")) = true := by
    decide +kernel
  obtain ⟨form, hform, hcompiled⟩ := exists_ok_of_any hcompiled
  simp only [Bool.and_eq_true, List.any_eq_true, beq_iff_eq] at hcompiled
  obtain ⟨⟨hlacks, hspeak⟩, c, hc, hname⟩ := hcompiled
  obtain ⟨hreference, hexpands⟩ := references_stored hform hc hname
  rcases hreference with ⟨hnested, -⟩ | ⟨pointer, hoffers, hstored, -⟩
  · exact absurd hnested not_nested_none
  · have hspeaks := hoffers.speaks (Setup.unreferenced_of hlacks)
      (Setup.itemsSpeaking_of hlacks hspeak)
    exact ⟨form, c, pointer, hform, hc, hname, hoffers, hspeaks, hstored hspeaks,
      fun site => (hexpands site).mpr (hstored hspeaks)⟩

/-- An object with a list of anything. -/
def anythingsSchema : Json :=
  .obj [("type", .str "object"), ("properties", .obj [("a", .obj [("type", .str "array"),
    ("items", .obj [])])])]

/-- An item of a list of anything is offered without a template. -/
theorem not_stored :
    ∃ form c, compile {} [] (some anythingsSchema) none none = .ok form ∧
      c ∈ Node.controlsAll form.layout ∧ c.reference = some "/a/-" ∧
      ∀ site, (form.instantiate "/a/-" site).1 = none := by
  have hmem : ("/a/-", false) ∈ offeredNames anythingsSchema := by decide +kernel
  obtain ⟨form, c, hform, hc, hname, hstored⟩ := mem_offeredNames hmem
  rw [Option.isSome_eq_false_iff, Option.isNone_iff_eq_none] at hstored
  refine ⟨form, c, hform, hc, hname, fun site => ?_⟩
  rw [instantiate, hstored]

end Form

end SchemaForm
