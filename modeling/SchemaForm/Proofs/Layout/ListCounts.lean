/-
Lists and the four ways to lay them out.

A list that is a property of the form is built from the schema where there is no description
or where it is described by its name alone, and filled up from the item that an entry gives
where it is described with one.  All four ways count the items by the same limits; only the
item that is described is there whatever the count is (`Form.lists_agree`).  What this asks
of a form holds for a list that stands alone in the schema (`Form.lists_of_standsAlone`).
-/
import SchemaForm.Proofs.Layout.ListEntries
import SchemaForm.Proofs.Layout.ListSchemas

namespace SchemaForm

open Build

/-! ## Layouts of a list -/

/-- The ways to lay out a list that is a property of the form: with the whole schema, by its
name, with an item of its own, and with one where none may be added. -/
inductive ListLayout where
  | whole
  | bare
  | listed
  | closed
deriving DecidableEq, Repr

namespace ListLayout

/-- The number of items that the description gives. -/
def given : ListLayout → Nat
  | whole | bare => 0
  | listed | closed => 1

/-- The description for the list of a name. -/
def description (name : String) : ListLayout → Option Json
  | whole => none
  | bare => some (.arr [.str name])
  | listed => some (.arr [.obj [("key", .str name), ("items", .arr [.str (name ++ "[]")])]])
  | closed => some (.arr [.obj [("key", .str name), ("addable", .bool false),
      ("items", .arr [.str (name ++ "[]")])]])

end ListLayout

/-- In the form no reference is filed as an item of the list, and where the list is described
by an entry with an item, it is described by its own schema. -/
structure Form.Lists (form : Form) (l : ListLayout) (name : String) : Prop where
  filed : ∀ t, form.progress.templates.template? (form.setup.itemPlace name) = some t →
    t.node.control.isReference = false
  described : 0 < l.given → form.progress.dataMap.pointer? (Pointer.child "" name) =
    some (Pointer.child "/properties" name)

namespace Form

open Generate

variable {options : FormOptions} {widgets : Registry} {schema data : Option Json} {form : Form}
  {name : String} {array : Json} {l : ListLayout} {layout : Option Json}

/-- In the end no name is reserved. -/
theorem not_reserved (h : compile options widgets schema layout data = .ok form)
    {library : Library} {f : Control → Control}
    (htemplates : form.progress.templates = library.mapControls f) :
    ∀ name, (name, none) ∉ library := by
  obtain ⟨s, nodes, -, hnone, -, hstored⟩ := compile_sound h
  intro name hmem
  have hmapped : (name, none) ∈ form.progress.templates := by
    rw [htemplates]
    exact List.mem_map_of_mem hmem
  rw [hstored] at hmapped
  obtain ⟨⟨other, t⟩, hother, he⟩ := List.mem_map.mp hmapped
  obtain ⟨rfl, ht⟩ := Prod.mk.inj he
  rw [Option.map_eq_none_iff] at ht
  rw [ht] at hother
  exact hnone _ hother

/-- What is filed as an item when the title maps are added is no reference either. -/
theorem Lists.filed_before (hl : form.Lists l name) {library : Library} {flat : Bool}
    (htemplates : form.progress.templates = library.mapControls (Compose.withTitleMap flat)) :
    ∀ t, library.template? (form.setup.itemPlace name) = some t →
      t.node.control.isReference = false := by
  intro t ht
  have hfinal := hl.filed ⟨t.node.map (Compose.withTitleMap flat), t.relative⟩ (by
    rw [htemplates, Library.template?_mapControls, ht]
    rfl)
  rw [Node.control_map] at hfinal
  exact (Compose.withTitleMap_same Control.isReference (fun _ _ => rfl) flat _).symm.trans hfinal

theorem finished_shown (ctx : Setup) (n : Node) : (finished ctx n).shown = n.shown := by
  rw [finished, Node.shown_map, Node.shown_modify]
  exact Compose.withTitleMap_same Control.isReference (fun _ _ => rfl) _

/-! ## No entry, and a bare one -/

theorem shown_whole (h : compile options widgets schema none data = .ok form)
    (hlist : form.setup.HasList name array) (hl : form.Lists .whole name) :
    (∃ n ∈ form.layout, n.control.dataPointer = some (Pointer.child "" name)) ∧
      ∀ n ∈ form.layout, n.control.dataPointer = some (Pointer.child "" name) →
        n.shown = form.setup.listCount name array := by
  obtain ⟨mapped, s, more, last, hrun, hmore, hlayout, hprogress⟩ :=
    Compose.runs_wholeLayout (compile_whole h)
  obtain ⟨properties, hproperties, hget, hname⟩ := hlist.property
  obtain ⟨fuel, hfuel⟩ : ∃ fuel, depthLimit form.setup = fuel + 1 := depthLimit_succ _
  have htemplates : form.progress.templates = s.templates.mapControls
      (Compose.withTitleMap form.setup.options.flatList) := by rw [hprogress]
  constructor
  · obtain ⟨r, s', made, hmade, hsub⟩ :=
      runs_object_of_mem hfuel hlist.object hproperties hrun hname
    obtain ⟨-, -, -, -, -, n, -, -, rfl, -⟩ := runs_listProperty hlist hmade
    refine ⟨finished form.setup n, ?_, ?_⟩
    · rw [hlayout, Node.mapAll_eq_map]
      refine List.mem_map_of_mem (List.mem_append_left _ (List.mem_map_of_mem ?_))
      exact hsub (List.mem_singleton_self n)
    · rw [finished_dataPointer, buildProperty_dataPointer hmade n (List.mem_singleton_self n)]
      exact congrArg some (hlist.plain.toGeneric _)
  · intro n hn hplace
    rw [hlayout] at hn
    obtain ⟨m, hm, rfl⟩ := mem_finished hmore hn hplace
    rw [finished_dataPointer] at hplace
    rw [finished_shown]
    obtain ⟨other, r, s', made, hother, hmade, hextends⟩ :=
      runs_object_mem hfuel hlist.object hproperties hrun hm
    have hpointer := buildProperty_dataPointer hother m hmade
    obtain rfl : other = name :=
      hlist.plain.eq_of_generic (Option.some.inj (hpointer.symm.trans hplace))
    exact shown_property hlist hother hmade hextends (not_reserved h htemplates)
      (hl.filed_before htemplates)

/-- A layout with one entry has its node first, and no other node that is bound. -/
theorem shown_single {ctx : Setup} {made : Node} {more nodes : List Node} {count : Nat}
    (hmore : more = [] ∨ ∃ id, more = [Compose.submitControl ctx id])
    (hnodes : nodes = Node.mapAll (Compose.withTitleMap ctx.options.flatList)
      (((Mapped.one (made.modify withTitle)).toList).map (·.modify (Compose.topControl ctx)) ++
        more))
    (hmade : made.control.dataPointer = some (Pointer.child "" name))
    (hshown : made.shown = count) :
    (∃ n ∈ nodes, n.control.dataPointer = some (Pointer.child "" name)) ∧
      ∀ n ∈ nodes, n.control.dataPointer = some (Pointer.child "" name) → n.shown = count := by
  subst hnodes
  constructor
  · refine ⟨finished ctx (made.modify withTitle), ?_, ?_⟩
    · rw [Node.mapAll_eq_map]
      exact List.mem_map_of_mem (List.mem_append_left _ List.mem_cons_self)
    · rw [finished_dataPointer, Node.control_modify, withTitle_dataPointer, hmade]
  · intro n hn hplace
    obtain ⟨m, hm, rfl⟩ := mem_finished hmore hn hplace
    rw [finished_shown, List.mem_singleton.mp hm, Node.shown_modify, hshown]

theorem shown_bare (h : compile options widgets schema (ListLayout.bare.description name) data =
      .ok form)
    (hlist : form.setup.HasList name array) (hl : form.Lists .bare name) :
    (∃ n ∈ form.layout, n.control.dataPointer = some (Pointer.child "" name)) ∧
      ∀ n ∈ form.layout, n.control.dataPointer = some (Pointer.child "" name) →
        n.shown = form.setup.listCount name array := by
  obtain ⟨mapped, q, more, hmapped, hmore, hlayout, htemplates, -⟩ := compile_single h
  have hkey : Description.ofJson? (.str name) = some (Compose.listParts [] name) := by
    have hno := hlist.plain.isPointer ""
    rw [String.append_empty] at hno
    exact Description.ofJson?_key hno
  obtain ⟨made, hmade, rfl⟩ := (Compose.runs_listEntry none hlist hkey).mp hmapped
  have hpointer : Compose.leading? form.setup { lastId := 1 } (Pointer.child "" name) =
      some (Pointer.child "/properties" name) := hlist.pointerOfData?
  obtain ⟨hplace, hshown⟩ := Compose.shown_bareNode hlist hpointer (not_reserved h htemplates)
    (hl.filed_before htemplates) hmade
  exact shown_single hmore hlayout hplace hshown

/-- The number of a described list: one at least. -/
theorem max_entryBounds {ctx : Setup} (hlist : ctx.HasList name array) {own : Members}
    (hown : ∀ key ∈ ["maxItems", "minItems", "listItems"],
      Table.get? (ctx.optionsFor own array) key = Table.get? (ctx.optionsFor [] array) key) :
    max 1 ((Compose.entryBounds ctx array own).instanceCount .words
        (ctx.dataLength (Pointer.child "" name))) = max 1 (ctx.listCount name array) := by
  rw [Compose.entryBounds, ArrayBounds.instanceCount_of hlist.tupleLength,
    ArrayBounds.listCount_congr hown]
  unfold Setup.listCount ArrayBounds.listCount
  rw [ArrayBounds.lower_eq _ _ (Schema.isRequired _ _)]
  split <;> omega

/-! ## Entries with an item -/

theorem ofJson_listed (name item : String) :
    Entry.ofJson (.obj [("key", .str name), ("items", .arr [.str item])]) =
      .branch (.obj [("key", .str name)]) [.leaf (.str item)] := by
  simp [Entry.ofJson, Entry.childrenUnder, Entry.ofItems, Table.swapErase]

theorem ofJson_closed (name item : String) :
    Entry.ofJson (.obj [("key", .str name), ("addable", .bool false),
        ("items", .arr [.str item])]) =
      .branch (.obj [("key", .str name), ("addable", .bool false)]) [.leaf (.str item)] := by
  simp [Entry.ofJson, Entry.childrenUnder, Entry.ofItems, Table.swapErase]

theorem ofJson?_listed (name : String) :
    Description.ofJson? (.obj [("key", .str name)]) = some (Compose.listParts [] name) := by
  rfl

theorem ofJson?_closed (name : String) :
    Description.ofJson? (.obj [("key", .str name), ("addable", .bool false)]) =
      some (Compose.listParts [("addable", .bool false)] name) := by
  rfl

/-- An entry with an item lays that out first, and is filled up from it then. -/
theorem runs_entry {item head : Json} {own : Members}
    (h : compile options widgets schema (some (.arr [item])) data = .ok form)
    (hentry : Entry.ofJson item = .branch head [.leaf (.str (name ++ "[]"))])
    (hparts : Description.ofJson? head = some (Compose.listParts own name))
    (hlist : form.setup.HasList name array) :
    ∃ s only made q more, only.control.isReference = false ∧ Sound form.setup False s [] ∧
      (Compose.bindNode form.setup true (Compose.listNode own name [only] s.lastId)).Runs
        s made q ∧
      (more = [] ∨ ∃ id, more = [Compose.submitControl form.setup id]) ∧
      form.layout = Node.mapAll (Compose.withTitleMap form.setup.options.flatList)
        (((Mapped.one (made.modify withTitle)).toList).map
          (·.modify (Compose.topControl form.setup)) ++ more) ∧
      form.progress.templates = q.templates.mapControls
        (Compose.withTitleMap form.setup.options.flatList) ∧
      form.progress.dataMap = q.dataMap := by
  obtain ⟨mapped, q, more, hmapped, hmore, hlayout, htemplates, hdataMap⟩ := compile_single h
  rw [hentry] at hmapped
  simp only [Entry.map, runs_bind] at hmapped
  obtain ⟨built, s, hbuilt, hmapped⟩ := hmapped
  -- the item is a leaf, so that nothing is stored that was made of entries
  have hleaves : (∃ item children, Entry.branch item children ∈
      [Entry.leaf (.str (name ++ "[]"))]) → False := by
    rintro ⟨item, children, hm⟩
    cases List.mem_singleton.mp hm
  have hstart := sound_start form.setup False
  have hlevel : Pointer.anyItem (Pointer.genericLayout (Pointer.item "" 0 ++ "/items")) =
      Pointer.level 1 := by decide +kernel
  have hbrings := Compose.entries_brings _ hlevel hleaves hstart hbuilt
  obtain ⟨first, hfirst, rfl⟩ := Compose.runs_mapAll_single.mp hbuilt
  obtain ⟨only, rfl, honly⟩ := Compose.runs_itemEntry hlist 0 hfirst
  obtain ⟨made, hmade, rfl⟩ :=
    (Compose.runs_listEntry (some [only]) hlist hparts).mp hmapped
  have hcounted : Brings form.setup False s { s with lastId := s.lastId + 1 } [] [] :=
    .counted s _ s.fieldsRequired _
  exact ⟨_, only, made, q, more, honly,
    hcounted.sound ((hbrings.sound hstart).subset (List.nil_subset _)), hmade, hmore, hlayout,
    htemplates, hdataMap⟩

theorem shown_entry {item head : Json} {own : Members}
    (h : compile options widgets schema (some (.arr [item])) data = .ok form)
    (hentry : Entry.ofJson item = .branch head [.leaf (.str (name ++ "[]"))])
    (hparts : Description.ofJson? head = some (Compose.listParts own name))
    (htype : Schema.controlType? array own = Schema.controlType? array [])
    (hown : ∀ key ∈ ["maxItems", "minItems", "listItems"],
      Table.get? (form.setup.optionsFor own array) key =
        Table.get? (form.setup.optionsFor [] array) key)
    (hlist : form.setup.HasList name array) (hl : form.Lists l name) (hgiven : 0 < l.given) :
    (∃ n ∈ form.layout, n.control.dataPointer = some (Pointer.child "" name)) ∧
      ∀ n ∈ form.layout, n.control.dataPointer = some (Pointer.child "" name) →
        n.shown = max 1 (form.setup.listCount name array) := by
  obtain ⟨s, only, made, q, more, honly, -, hmade, hmore, hlayout, htemplates, hdataMap⟩ :=
    runs_entry h hentry hparts hlist
  have hrecorded := Compose.leading?_of_recorded hmade
  rw [Compose.boundKey_listNode hlist, ← hdataMap, hl.described hgiven] at hrecorded
  obtain ⟨hplace, hshown⟩ := Compose.shown_listNode hlist htype honly hrecorded.symm
    (hl.filed_before htemplates) hmade
  exact shown_single hmore hlayout hplace (hshown.trans (max_entryBounds hlist hown))

/-! ## Lists that stand alone -/

/-- Without entries of entries, what is filed as an item of a list that stands alone is no
reference. -/
theorem filed_of_standsAlone (h : compile options widgets schema layout data = .ok form)
    (hflat : ¬Nested layout) (ha : form.setup.StandsAlone name) {t : Template}
    (ht : form.progress.templates.template? (form.setup.itemPlace name) = some t) :
    t.node.control.isReference = false := by
  rcases template_filed h ht with hnested | hfills
  · exact absurd hnested hflat
  · exact Filed.plain ha (.inr hfills)

theorem not_nested_bare : ¬Nested (ListLayout.bare.description name) := by
  rintro ⟨entries, item, children, hentries, hm⟩
  obtain rfl : [Json.str name] = entries := Except.ok.inj hentries
  cases List.mem_singleton.mp hm

theorem lists_entry {item head : Json} {own : Members}
    (h : compile options widgets schema (some (.arr [item])) data = .ok form)
    (hentry : Entry.ofJson item = .branch head [.leaf (.str (name ++ "[]"))])
    (hparts : Description.ofJson? head = some (Compose.listParts own name))
    (htype : Schema.controlType? array own = Schema.controlType? array [])
    (hlist : form.setup.HasList name array) (ha : form.setup.StandsAlone name) :
    form.Lists l name := by
  obtain ⟨s, only, made, q, more, honly, hsound, hmade, -, -, htemplates, hdataMap⟩ :=
    runs_entry h hentry hparts hlist
  have hpointer : Compose.leading? form.setup s (Pointer.child "" name) =
      some (Pointer.child "/properties" name) := by
    cases hrecorded : s.dataMap.pointer? (Pointer.child "" name) with
    | none => rw [Compose.leading?, hrecorded, Option.none_or, hlist.pointerOfData?]
    | some pointer =>
        rw [Compose.leading?, hrecorded, (hsound.leads _ _ hrecorded).own hlist ha]
        rfl
  refine ⟨fun t ht => ?_, fun _ => ?_⟩
  · rw [htemplates, Library.template?_mapControls, Option.map_eq_some_iff] at ht
    obtain ⟨first, hfirst, rfl⟩ := ht
    rw [Node.control_map,
      Compose.withTitleMap_same Control.isReference (fun _ _ => rfl)]
    rcases Compose.filed_listNode hlist htype honly hpointer hmade hfirst with hbefore | hplain
    · exact (hsound.filed _ _ (Library.template?_mem hbefore)).plain ha
    · exact hplain
  · have hrecorded := Compose.leading?_of_recorded hmade
    rw [Compose.boundKey_listNode hlist] at hrecorded
    rw [hdataMap, hrecorded, hpointer]

/-- **Lists that stand alone.**  Where no rule leads up to the list or the form as a whole and
no reference is asked for as an item, the list is as it should be in all four layouts. -/
theorem lists_of_standsAlone (h : compile options widgets schema (l.description name) data =
      .ok form)
    (hlist : form.setup.HasList name array) (ha : form.setup.StandsAlone name) :
    form.Lists l name := by
  cases l with
  | whole =>
      exact ⟨fun t ht => filed_of_standsAlone h not_nested_none ha ht,
        fun hgiven => absurd hgiven (Nat.lt_irrefl 0)⟩
  | bare =>
      exact ⟨fun t ht => filed_of_standsAlone h not_nested_bare ha ht,
        fun hgiven => absurd hgiven (Nat.lt_irrefl 0)⟩
  | listed => exact lists_entry h (ofJson_listed _ _) (ofJson?_listed name) rfl hlist ha
  | closed =>
      exact lists_entry h (ofJson_closed _ _) (ofJson?_closed name)
        (Schema.controlType?_congr rfl rfl) hlist ha

/-! ## All four layouts -/

theorem listCount_le {ctx : Setup} {most : Nat}
    (h : (array.get? "maxItems").bind Json.word? = some most) :
    ctx.listCount name array ≤ most := by
  unfold Setup.listCount ArrayBounds.listCount ArrayBounds.upper
  rw [ArrayBounds.limit?, h, Option.getD_some]
  exact (Nat.min_le_right _ _).trans (Nat.min_le_left _ _)

/-- **Lists.**  A list that is a property of the form has the same number of items in all four
layouts, and no more than its upper limit, except that an item that is described is always
there: where none is counted, it is the only one. -/
theorem lists_agree {f : ListLayout → Form}
    (h : ∀ l, compile options widgets schema (l.description name) data = .ok (f l))
    (hlist : (f .whole).setup.HasList name array) (hl : ∀ l, (f l).Lists l name) :
    (∀ l, ∃ n ∈ (f l).layout, n.control.dataPointer = some (Pointer.child "" name)) ∧
      (∀ l, ∀ n ∈ (f l).layout, n.control.dataPointer = some (Pointer.child "" name) →
        n.shown = max l.given ((f .whole).setup.listCount name array)) ∧
      ∀ most, (array.get? "maxItems").bind Json.word? = some most →
        (f .whole).setup.listCount name array ≤ most := by
  rw [← and_assoc, ← forall_and]
  refine ⟨fun l => ?_, fun most hmost => listCount_le hmost⟩
  have hsetup : (f .whole).setup = (f l).setup := setup_eq (h l) (h .whole)
  rw [hsetup] at hlist ⊢
  cases l with
  | whole =>
      rw [ListLayout.given, Nat.zero_max]
      exact shown_whole (h .whole) hlist (hl .whole)
  | bare =>
      rw [ListLayout.given, Nat.zero_max]
      exact shown_bare (h .bare) hlist (hl .bare)
  | listed =>
      exact shown_entry (h .listed) (ofJson_listed _ _) (ofJson?_listed name) rfl
        (fun _ _ => rfl) hlist (hl .listed) Nat.one_pos
  | closed =>
      exact shown_entry (h .closed) (ofJson_closed _ _) (ofJson?_closed name)
        (Schema.controlType?_congr rfl rfl)
        (limits_optionsFor _ array (by decide) (by decide)) hlist (hl .closed) Nat.one_pos

/-- The property of a form that is a list, if it is one. -/
def listNamed? (s : Setup) (name : String) : Option Json :=
  ((s.schema.get? "properties").bind Json.obj?).bind fun properties =>
    (Table.get? properties name).filter fun array =>
      decide (Pointer.IsPlain name ∧ Schema.typeName? s.schema = some "object" ∧
        name ∈ Generate.propertyNames s.schema properties ∧
        Schema.typeName? array = some "array" ∧
        s.dataKey (Pointer.child "" name) = Pointer.child "" name ∧
        s.itemPlace name = Pointer.anyItem (Pointer.child "" name) ∧
        s.schemaKey (Pointer.child "/properties" name ++ "/items") =
          Pointer.child "/properties" name ++ "/items") &&
      (Schema.controlType? array []).any (fun type => !type.startsWith "checkboxes") &&
      match array.get? "items" with
      | some (.obj members) => isDescribed (.obj members) &&
          (Schema.controlType? (.obj members) []).any (· ≠ "$ref")
      | _ => false

theorem hasList_of_listNamed? {s : Setup} (h : listNamed? s name = some array) :
    s.HasList name array := by
  obtain ⟨properties, hproperties, h⟩ := Option.bind_eq_some_iff.mp h
  obtain ⟨hget, h⟩ := Option.filter_eq_some_iff.mp h
  simp only [Bool.and_eq_true, decide_eq_true_eq, Option.any_eq_true, Bool.not_eq_true'] at h
  obtain ⟨⟨⟨hplain, hobject, hname, harray, hplace, hitem, hkey⟩, hcontrol⟩, hitems⟩ := h
  split at hitems
  · next members hmembers =>
      simp only [Bool.and_eq_true, Option.any_eq_true, decide_eq_true_eq] at hitems
      obtain ⟨hdescribed, type, htype, hne⟩ := hitems
      exact .of_own hplain hobject hproperties hget hname ⟨harray, hcontrol⟩ hmembers hdescribed
        htype hne hplace hitem hkey
  · exact absurd hitems Bool.false_ne_true

/-- The form of a list of texts. -/
def textsSchema (name : String) (limits : Members) : Json :=
  .obj [("type", .str "object"), ("properties", .obj [(name, .obj
    ([("type", .str "array"), ("items", .obj [("type", .str "string")])] ++ limits))])]

/-- Three tags. -/
def threeTags : Json := .obj [("tags", .arr [.str "a", .str "b", .str "c"])]

theorem lists_agree_tags :
    ∃ (f : ListLayout → Form) (array : Json),
      (∀ l, compile {} [] (some (textsSchema "tags" [("minItems", Json.nat 2),
        ("maxItems", Json.nat 4)])) (l.description "tags") (some threeTags) = .ok (f l)) ∧
      (f .whole).setup.HasList "tags" array ∧ (∀ l, (f l).Lists l "tags") ∧
      ∀ l, (∃ n ∈ (f l).layout, n.control.dataPointer = some (Pointer.child "" "tags")) ∧
        ∀ n ∈ (f l).layout, n.control.dataPointer = some (Pointer.child "" "tags") →
          n.shown = 3 := by
  have hforms : ∀ l : ListLayout, (compile {} [] (some (textsSchema "tags" [("minItems",
      Json.nat 2), ("maxItems", Json.nat 4)])) (l.description "tags") (some threeTags)).toOption.any
      (fun form => (listNamed? form.setup "tags").any (fun array =>
          form.setup.listCount "tags" array == 3) &&
        form.setup.lacksReferences && decide (form.setup.resolved.schema.Everywhere fun members =>
          Schema.controlType? (.obj members) [] ≠ some "$ref")) = true := by
    intro l
    cases l <;> decide +kernel
  choose f hf hall using fun l => exists_ok_of_any (hforms l)
  simp only [Bool.and_eq_true, Option.any_eq_true, beq_iff_eq, decide_eq_true_iff] at hall
  obtain ⟨⟨⟨array, harray, hcount⟩, -⟩, -⟩ := hall .whole
  have hlist := hasList_of_listNamed? harray
  have hl : ∀ l, (f l).Lists l "tags" := by
    intro l
    obtain ⟨⟨⟨other, hother, -⟩, hlacks⟩, htypes⟩ := hall l
    exact lists_of_standsAlone (hf l) (hasList_of_listNamed? hother)
      (Setup.standsAlone_of hlacks htypes)
  obtain ⟨hfound, hshown, -⟩ := lists_agree hf hlist hl
  refine ⟨f, array, hf, hlist, hl, fun l => ⟨hfound l, fun n hn hplace => ?_⟩⟩
  rw [hshown l n hn hplace, hcount]
  cases l <;> rfl

/-- The numbers of items of a list in a layout. -/
def listCounts (schema : Json) (name : String) (l : ListLayout) : List Nat :=
  match compile {} [] (some schema) (l.description name) none with
  | .ok form => (form.layout.filter (·.control.dataPointer = some (Pointer.child "" name))).map
      Node.shown
  | .error _ => []

theorem mem_listCounts {schema : Json} {count : Nat} (h : count ∈ listCounts schema name l) :
    ∃ form n, compile {} [] (some schema) (l.description name) none = .ok form ∧
      n ∈ form.layout ∧ n.control.dataPointer = some (Pointer.child "" name) ∧
      n.shown = count := by
  unfold listCounts at h
  split at h
  · next form hform =>
      obtain ⟨n, hn, hcount⟩ := List.mem_map.mp h
      obtain ⟨hmem, hplace⟩ := List.mem_filter.mp hn
      exact ⟨form, n, hform, hmem, of_decide_eq_true hplace, hcount⟩
  · exact absurd h List.not_mem_nil

/-- A list that may have no item has none, but has one where that is described. -/
theorem not_lists_agree :
    (∃ form n, compile {} [] (some (textsSchema "k" [("maxItems", Json.nat 0)])) none none =
        .ok form ∧ n ∈ form.layout ∧ n.control.dataPointer = some (Pointer.child "" "k") ∧
        n.shown = 0) ∧
      ∃ form n, compile {} [] (some (textsSchema "k" [("maxItems", Json.nat 0)]))
        (some (.arr [.obj [("key", .str "k"), ("items", .arr [.str "k[]"])]])) none =
          .ok form ∧ n ∈ form.layout ∧ n.control.dataPointer = some (Pointer.child "" "k") ∧
        n.shown = 1 := by
  have hwhole : 0 ∈ listCounts (textsSchema "k" [("maxItems", Json.nat 0)]) "k" .whole := by
    decide +kernel
  have hlisted : 1 ∈ listCounts (textsSchema "k" [("maxItems", Json.nat 0)]) "k" .listed := by
    decide +kernel
  exact ⟨mem_listCounts hwhole, mem_listCounts hlisted⟩

end Form

end SchemaForm
