/-
Bare keys.

A property of the form is laid out with the whole schema, or by itself where the description is
its pointer alone.  The two layouts infer the type, gather the options, mark what is required and
lay out the contents by code of their own.  They give the same node but for the ids
(`Form.bare_key_alike`), where the property is found at its own place, where it shares no template
with another property, which it does not where nothing is folded (`Setup.Straight.of_plain`), and
where it is described alike in both (`Setup.Suits`).  Checkboxes in a line are not
(`Form.not_bare_key_alike`).
-/
import SchemaForm.Proofs.Layout.KeyContents
import SchemaForm.Proofs.Layout.Unfolded

namespace SchemaForm

open Build Generate Compose

/-! ## Properties that are laid out by themselves -/

namespace Setup

variable {s : Setup} {name : String} {schema : Json}

/-- A property of the form that is found at its own place, and shares no template. -/
structure Straight (s : Setup) (name : String) : Prop where
  generic : s.generic (Pointer.child "" name) = Pointer.child "" name
  alone : ∀ other, s.generic (Pointer.child "" other) = Pointer.child "" name → other = name
  found : Schema.pointerOfData? s.schema (s.dataKey (Pointer.child "" name)) =
    some (Pointer.child "/properties" name)
  /-- No template is asked for both within the property and within another one. -/
  apart : ∀ properties, (s.schema.get? "properties").bind Json.obj? = some properties →
    ∀ other ∈ propertyNames s.schema properties, other ≠ name → ∀ place,
      (keyRequest other).AsksFor s place → ¬(keyRequest name).AsksFor s place
  suits : ∀ schema type, s.resolved.schemaAt? (Pointer.child "/properties" name) = some schema →
    Schema.controlType? schema [] = some type →
      s.Suits (Pointer.child "/properties" name) schema type

/-- A property of a plain name is such a one where nothing is folded, if its schema suits. -/
theorem Straight.of_plain {properties : Members} (hplain : Pointer.IsPlain name)
    (hunfolded : s.Unfolded)
    (hproperties : (s.schema.get? "properties").bind Json.obj? = some properties)
    (hget : Table.get? properties name = some schema)
    (hsuits : ∀ type, Schema.controlType? schema [] = some type →
      s.Suits (Pointer.child "/properties" name) schema type) : s.Straight name := by
  have hgeneric : s.generic (Pointer.child "" name) = Pointer.child "" name :=
    hplain.toGeneric s.resolved.arrays
  refine ⟨hgeneric, fun other he => hplain.eq_of_generic he, ?_, ?_, ?_⟩
  · rw [hunfolded.dataKey, hgeneric]
    exact hplain.pointerOfData? hproperties hget
  · intro _ _ other _ hne place hasks
    exact hunfolded.apart hgeneric (fun he => hplain.eq_of_generic he) hne hasks
  · intro found type hfound htype
    have hat : s.resolved.schemaAt? (Pointer.child "/properties" name) = some schema := by
      rw [Pointer.child_properties]
      exact schemaAt?_of_field (.property .root hproperties hget)
    obtain rfl := Option.some.inj (hat.symm.trans hfound)
    exact hsuits type htype

/-- Whether that is so, as far as `suits?` tells. -/
def straight? (s : Setup) (name : String) : Bool :=
  decide (Pointer.IsPlain name) && s.resolved.dataFolds.isEmpty &&
    (((s.schema.get? "properties").bind Json.obj?).bind (Table.get? · name)).any fun schema =>
      (Schema.controlType? schema []).all (s.suits? (Pointer.child "/properties" name) schema)

theorem straight_of_straight? (h : s.straight? name = true) : s.Straight name := by
  obtain ⟨h, hschema⟩ := Bool.and_eq_true_iff.mp h
  obtain ⟨hplain, hunfolded⟩ := Bool.and_eq_true_iff.mp h
  obtain ⟨schema, hget, hsuits⟩ := (Option.any_eq_true _ _).mp hschema
  obtain ⟨properties, hproperties, hget⟩ := Option.bind_eq_some_iff.mp hget
  refine .of_plain (of_decide_eq_true hplain) (List.isEmpty_iff.mp hunfolded) hproperties hget ?_
  intro type htype
  exact suits_of_suits? ((Option.all_eq_true _ _).mp hsuits type htype)

end Setup

namespace Compose

variable {ctx : Setup} {name : String} {schema : Json}

/-- The pointer of a property is the entry that is bound to it. -/
theorem ofJson?_child (name : String) : Description.ofJson? (.str (Pointer.child "" name)) =
    some { dataPointer := some (Pointer.child "" name) } := by
  have hpointer : Pointer.isPointer (Pointer.child "" name) = true := by
    rw [Pointer.child_root, Pointer.isPointer, Pointer.toList_ofSegments]
    rfl
  rw [Description.ofJson?, if_pos ⟨Pointer.slash_ne_empty _ _, hpointer⟩]

/-- An entry that is the pointer of a property is filled in with what the property contains. -/
theorem runs_keyEntry (hs : ctx.Straight name)
    (hschema : ctx.resolved.schemaAt? (Pointer.child "/properties" name) = some schema) :
    ∃ s, s.templates = [] ∧ ∀ m q,
      (expandBound ctx (Pointer.child "/properties" name)
          (describedControl ctx (Pointer.child "/properties" name) schema
            (keyControl name 1))).Runs s m q →
        (Entry.map (step ctx) "" 0 (Entry.ofJson (.str (Pointer.child "" name)))).Runs {}
          (.one (m.modify withTitle)) q := by
  have hkey : leading? ctx { lastId := 1 } (boundKey ctx (keyControl name 1)) =
      some (Pointer.child "/properties" name) := by
    have hplace : boundKey ctx (keyControl name 1) = ctx.dataKey (Pointer.child "" name) :=
      congrArg ctx.dataKey hs.generic
    rw [hplace]
    exact hs.found
  obtain ⟨s, hs', -, hbind⟩ := bindNode_described false (n := .mk (keyControl name 1) []) hkey
    hschema
  refine ⟨s, hs', fun m q hm => ?_⟩
  exact (composeEntry_bound none _ (ofJson?_child name) rfl (Pointer.child_ne_star name)).mpr
    ⟨m, (hbind m q).mpr hm, rfl⟩

end Compose

/-! ## Turns of properties -/

namespace Generate

variable {ctx : Setup} {p q : Progress} {name : String} {made : List Node} {n : Node} {fuel : Nat}

/-- The nodes of a property of the form are marked where it is required. -/
theorem runs_required {layoutPointer : String}
    (h : (buildProperty (buildNode ctx fuel) {} ctx.schema layoutPointer name).Runs p made q) :
    ∃ mapped s, (buildNode ctx fuel (propertyRequest {} layoutPointer name)).Runs p mapped s ∧
      made = mapped.toList.map
        (·.modify (requiredControl ctx (Pointer.child "/properties" name))) := by
  simp only [buildProperty, runs_bind] at h
  obtain ⟨mapped, s, hbuilt, h⟩ := h
  refine ⟨mapped, s, hbuilt, ?_⟩
  unfold markRequired at h
  unfold requiredControl
  cases hrequired : Schema.isRequired ctx.schema (Pointer.child "/properties" name) with
  | false =>
      rw [hrequired, Bool.false_and, if_neg Bool.false_ne_true] at h
      obtain ⟨rfl, -⟩ := runs_pure.mp h
      have hkept : ∀ n : Node, n.modify (fun c => c) = n := by rintro ⟨c, items⟩; rfl
      simp only [Bool.false_eq_true, if_false, hkept, List.map_id']
  | true =>
      rw [hrequired, Bool.true_and] at h
      split at h
      · obtain ⟨_, _, -, h⟩ := runs_bind.mp h
        exact (runs_pure.mp h).1
      · next hempty =>
          obtain ⟨rfl, -⟩ := runs_pure.mp h
          rw [Bool.not_eq_true, Bool.not_eq_false', List.isEmpty_iff] at hempty
          rw [hempty, List.map_nil]

/-- A property that is laid out once is laid out in every turn. -/
theorem required_ne_nil {r s : Progress} {layoutPointer : String} {part : List Node}
    (hpart : (buildProperty (buildNode ctx fuel) {} ctx.schema layoutPointer name).Runs r part s)
    (hne : part ≠ [])
    (h : (buildProperty (buildNode ctx fuel) {} ctx.schema layoutPointer name).Runs p made q) :
    made ≠ [] := by
  have hroot : (propertyRequest {} layoutPointer name).isRoot = false :=
    isRoot_of_ne (Pointer.slash_ne_empty _ _)
  obtain ⟨mapped, _, hbuilt, rfl⟩ := runs_required hpart
  obtain ⟨mapped', _, hbuilt', rfl⟩ := runs_required h
  obtain ⟨n, hn⟩ := List.exists_mem_of_ne_nil _ fun hnil => hne (List.map_eq_nil_iff.mpr hnil)
  obtain ⟨schema, hschema, hdescribed, htype, -⟩ :=
    (serves_buildNode (B := False) fuel).isOf hbuilt hroot n hn
  have hspeaks : Speaks ctx (propertyRequest {} layoutPointer name).schemaPointer :=
    ⟨schema, _, hschema, hdescribed, htype⟩
  have hsome := (serves_buildNode (B := False) fuel).speaks hbuilt' hroot hspeaks
  exact fun hnil => hsome (List.map_eq_nil_iff.mp hnil)

/-- What a property is laid out as. -/
theorem runs_turn
    (h : (buildProperty (buildNode ctx fuel) {} ctx.schema (Pointer.anyItem "") name).Runs p made q)
    (hn : made.head? = some n) :
    ∃ fuel' schema type id s mapped s', fuel' ≤ fuel ∧
      ctx.resolved.schemaAt? (Pointer.child "/properties" name) = some schema ∧
      Schema.controlType? schema [] = some type ∧ s.templates = p.templates ∧
      (complete ctx (buildNode ctx fuel') (keyRequest name) schema
        (controlFor ctx (keyRequest name) schema type id)).Runs s mapped s' ∧
      made = mapped.toList.map
        (·.modify (requiredControl ctx (Pointer.child "/properties" name))) := by
  obtain ⟨mapped, s', hbuilt, rfl⟩ := runs_required h
  cases fuel with
  | zero => exact absurd hbuilt not_runs_failure
  | succ fuel =>
      rcases runs_buildOne hbuilt with ⟨rfl, -⟩ | ⟨schema, type, hschema, -, htype, hbuilt⟩
      · cases hn
      obtain ⟨id, s, hid, hbuilt⟩ := runs_buildSchema hbuilt
      rw [propertyRequest_root] at hschema
      refine ⟨fuel, schema, type, id, _, mapped, s', Nat.le_succ fuel, hschema, htype, ?_, hbuilt,
        rfl⟩
      rcases hid with ⟨-, -, rfl⟩ | ⟨-, -, rfl⟩ <;> rfl

/-- The first node at the place of a property comes of its first turn. -/
theorem runs_first {names : List String} {parts : List (List Node)}
    (hgeneric : ctx.generic (Pointer.child "" name) = Pointer.child "" name)
    (halone : ∀ other, ctx.generic (Pointer.child "" other) = Pointer.child "" name → other = name)
    (h : (names.mapM (buildProperty (buildNode ctx fuel) {} ctx.schema (Pointer.anyItem ""))).Runs
      p parts q)
    (hn : parts.flatten.find? (Node.isAt (Pointer.child "" name)) = some n) :
    ∃ before parts' s made s', before ⊆ names ∧ name ∉ before ∧
      (before.mapM (buildProperty (buildNode ctx fuel) {} ctx.schema (Pointer.anyItem ""))).Runs
        p parts' s ∧
      (buildProperty (buildNode ctx fuel) {} ctx.schema (Pointer.anyItem "") name).Runs s made s' ∧
      made.head? = some n := by
  have hplaces : ∀ {other : String} {p made q},
      (buildProperty (buildNode ctx fuel) {} ctx.schema (Pointer.anyItem "") other).Runs p made q →
        ∀ m ∈ made, m.isAt (Pointer.child "" name) =
          (ctx.generic (Pointer.child "" other) == Pointer.child "" name) := by
    intro other p made q hmade m hm
    rw [Node.isAt, buildProperty_dataPointer hmade m hm]
    rfl
  obtain ⟨part, hpart, hmem⟩ := List.mem_flatten.mp (List.mem_of_find?_eq_some hn)
  obtain ⟨_, other, _, _, _, r, s, hnames, -, -, hturn, -⟩ := runs_mapM_mem h hpart
  obtain rfl : other = name :=
    halone other (beq_iff_eq.mp ((hplaces hturn n hmem).symm.trans (List.find?_some hn)))
  have hname : other ∈ names := by
    rw [hnames]
    exact List.mem_append_right _ List.mem_cons_self
  obtain ⟨before, after, rfl, hnot⟩ := List.eq_append_cons_of_mem hname
  obtain ⟨parts', rest, s', rfl, hbefore, hrest⟩ := runs_mapM_append h
  obtain ⟨made, s'', rest', hmade, -, rfl⟩ := runs_mapM_cons.mp hrest
  refine ⟨before, parts', s', made, s'', List.subset_append_left _ _, hnot, hbefore, hmade, ?_⟩
  have hearlier : parts'.flatten.find? (Node.isAt (Pointer.child "" other)) = none := by
    rw [List.find?_eq_none]
    intro m hm hplace
    obtain ⟨part, hpart, hm⟩ := List.mem_flatten.mp hm
    obtain ⟨_, name, _, _, _, _, _, rfl, -, -, hturn, -⟩ := runs_mapM_mem hbefore hpart
    obtain rfl := halone name (beq_iff_eq.mp ((hplaces hturn m hm).symm.trans hplace))
    exact hnot (List.mem_append_right _ List.mem_cons_self)
  cases hmade' : made with
  | nil => exact absurd hmade' (required_ne_nil hturn (List.ne_nil_of_mem hmem) hmade)
  | cons first tail =>
      have hfirst : first.isAt (Pointer.child "" other) = true := by
        rw [hplaces hmade first (hmade' ▸ List.mem_cons_self), hgeneric, beq_self_eq_true]
      rw [List.flatten_append, List.find?_append, hearlier, Option.none_or, List.flatten_cons,
        hmade', List.cons_append, List.find?_cons_of_pos hfirst] at hn
      exact hn

end Generate

namespace Form

variable {options : FormOptions} {widgets : Registry} {schema data : Option Json} {form : Form}
  {name : String} {n : Node}

/-- The first node at the place of a property, as it was built.  No template that its request asks
for was there before. -/
theorem whole_first (h : compile options widgets schema none data = .ok form)
    (hobject : Schema.typeName? form.setup.schema = some "object")
    (hs : form.setup.Straight name)
    (hn : form.layout.find? (Node.isAt (Pointer.child "" name)) = some n) :
    ∃ fuel s made s' first, fuel ≤ depthLimit form.setup ∧
      (Table.names s.templates).Nodup ∧
      (∀ place, (keyRequest name).AsksFor form.setup place →
        Table.get? s.templates place = none) ∧
      (buildProperty (buildNode form.setup fuel) {} form.setup.schema (Pointer.anyItem "")
        name).Runs s made s' ∧
      made.head? = some first ∧ n = finished form.setup first := by
  obtain ⟨mapped, s, more, last, hrun, hmore, hlayout, -⟩ :=
    Compose.runs_wholeLayout (compile_whole h)
  rw [hlayout, find?_finished _ hmore] at hn
  obtain ⟨first, hfirst, rfl⟩ := Option.map_eq_some_iff.mp hn
  cases hproperties : (form.setup.schema.get? "properties").bind Json.obj? with
  | none =>
      rw [runs_object_none hobject hproperties hrun] at hfirst
      cases hfirst
  | some properties =>
      obtain ⟨fuel, hfuel⟩ := depthLimit_succ form.setup
      obtain ⟨p, parts, hp, hparts, rfl⟩ := runs_object hfuel hobject hproperties hrun
      obtain ⟨before, parts', s₁, made, s₂, hsub, hnot, hbefore, hmade, hhead⟩ :=
        runs_first hs.generic hs.alone hparts hfirst
      have hnil : p.templates = [] := hp
      obtain ⟨hnodup, hframe⟩ := properties_frame (hnil ▸ List.nodup_nil) hbefore
      refine ⟨fuel, s₁, made, s₂, first, by omega, hnodup, fun place hplace => ?_, hmade, hhead,
        rfl⟩
      rw [hframe place fun other hother hasks => ?_, hnil]
      · rfl
      · have hne : other ≠ name := fun he => hnot (he ▸ hother)
        exact hs.apart properties hproperties other (hsub hother) hne place hasks hplace

/-- **Bare keys.**  The node that a form has for a property is the first one of the form that is
described by the pointer of the property alone, but for the ids. -/
theorem bare_key_alike (h : compile options widgets schema none data = .ok form)
    (hobject : Schema.typeName? form.setup.schema = some "object")
    (hs : form.setup.Straight name)
    (hn : form.layout.find? (Node.isAt (Pointer.child "" name)) = some n) :
    ∃ form' m rest, compile options widgets schema
        (some (.arr [.str (Pointer.child "" name)])) data = .ok form' ∧
      form'.layout = m :: rest ∧ n.Alike m := by
  obtain ⟨fuel, s, made, s', first, hfuel, hnodup, hfresh, hmade, hhead, rfl⟩ :=
    whole_first h hobject hs hn
  obtain ⟨fuel', schema', type, id, p, mapped, q, hfuel', hschema, htype, hp, hcomplete, rfl⟩ :=
    runs_turn hmade hhead
  have hsuits := hs.suits schema' type hschema htype
  obtain ⟨p', hp', hentry⟩ := Compose.runs_keyEntry hs hschema
  have hpair : Compose.KeyPair form.setup name schema' type
      (controlFor form.setup (keyRequest name) schema' type id)
      (Compose.describedControl form.setup (Pointer.child "/properties" name) schema'
        (Compose.keyControl name 1)) :=
    ⟨hschema, hsuits, ⟨id, controlFor_key hs.generic schema' type id⟩,
      Compose.describedControl_key hs.generic htype hsuits 1⟩
  -- all that the property asks for is still to be built, as it is for the entry
  have hsame : Progress.SameOn ((keyRequest name).AsksFor form.setup) p p' := by
    refine ⟨fun place hplace => ?_, by rw [hp]; exact hnodup, by rw [hp']; exact List.nodup_nil⟩
    rw [hp, hp', hfresh place hplace]
    rfl
  have hfollows := hpair.contents_follow
    (twins_buildNode (hfuel'.trans hfuel) (keyRequest name))
  obtain ⟨⟨m, q', hm, ⟨built, rfl, halike⟩, -⟩, -⟩ := hfollows p mapped q p' hcomplete hsame
  have hrun := hentry m q' hm
  obtain ⟨form', h'⟩ := compile_of_single h hrun
  have hsetup : form'.setup = form.setup := setup_eq h h'
  obtain ⟨mapped, q'', more, hrun', -, hlayout, -, -⟩ := compile_single h'
  rw [hsetup] at hrun' hlayout
  obtain ⟨rfl, -⟩ := Prod.mk.inj (Option.some.inj (hrun.symm.trans hrun'))
  obtain rfl : built.modify (Compose.requiredControl form.setup
      (Pointer.child "/properties" name)) = first := Option.some.inj hhead
  exact ⟨form', finished form.setup (m.modify withTitle), _, h', hlayout,
    finished_alike form.setup halike⟩

/-- The form of an order: a list, an object with one, and a list of choices. -/
def orderSchema : Json := .obj [("type", .str "object"),
  ("required", .arr [.str "tags"]),
  ("properties", .obj [
    ("tags", .obj [("type", .str "array"), ("items", .obj [("type", .str "string")]),
      ("minItems", Json.nat 2)]),
    ("buyer", .obj [("type", .str "object"), ("properties", .obj [
      ("name", .obj [("type", .str "string")]),
      ("mails", .obj [("type", .str "array"), ("items", .obj [("type", .str "string")])])])]),
    ("kinds", .obj [("type", .str "array"), ("items", .obj [("type", .str "string"),
      ("enum", .arr [.str "a", .str "b"])])])])]

theorem bare_key_alike_order :
    ∃ form, compile {} [] (some orderSchema) none none = .ok form ∧
      Schema.typeName? form.setup.schema = some "object" ∧
      ∀ name ∈ ["tags", "buyer", "kinds"], form.setup.Straight name ∧
        ∃ n, form.layout.find? (Node.isAt (Pointer.child "" name)) = some n ∧
          ∃ form' m rest, compile {} [] (some orderSchema)
              (some (.arr [.str (Pointer.child "" name)])) none = .ok form' ∧
            form'.layout = m :: rest ∧ n.Alike m := by
  have hall : (compile {} [] (some orderSchema) none none).toOption.any (fun form =>
      decide (Schema.typeName? form.setup.schema = some "object") &&
        ["tags", "buyer", "kinds"].all fun name => form.setup.straight? name &&
          (form.layout.find? (Node.isAt (Pointer.child "" name))).isSome) = true := by
    decide +kernel
  obtain ⟨form, hform, hall⟩ := exists_ok_of_any hall
  obtain ⟨hobject, hall⟩ := Bool.and_eq_true_iff.mp hall
  refine ⟨form, hform, of_decide_eq_true hobject, fun name hname => ?_⟩
  obtain ⟨hs, hn⟩ := Bool.and_eq_true_iff.mp (List.all_eq_true.mp hall name hname)
  obtain ⟨n, hn⟩ := Option.isSome_iff_exists.mp hn
  have hstraight := Setup.straight_of_straight? hs
  exact ⟨hstraight, n, hn, bare_key_alike hform (of_decide_eq_true hobject) hstraight hn⟩

/-- The nodes of a property in the two layouts. -/
def keyNodes? (schema : Json) (name : String) : Option (Node × Node) :=
  match compile {} [] (some schema) none none,
    compile {} [] (some schema) (some (.arr [.str (Pointer.child "" name)])) none with
  | .ok form, .ok form' =>
      (form.layout.find? (Node.isAt (Pointer.child "" name))).bind fun n =>
        form'.layout.head?.map (n, ·)
  | _, _ => none

theorem of_keyNodes? {schema : Json} {m : Node} (h : keyNodes? schema name = some (n, m)) :
    ∃ form form' rest, compile {} [] (some schema) none none = .ok form ∧
      form.layout.find? (Node.isAt (Pointer.child "" name)) = some n ∧
      compile {} [] (some schema) (some (.arr [.str (Pointer.child "" name)])) none = .ok form' ∧
      form'.layout = m :: rest := by
  unfold keyNodes? at h
  split at h
  · next form form' hform hform' =>
      obtain ⟨n', hn, h⟩ := Option.bind_eq_some_iff.mp h
      obtain ⟨m', hm, he⟩ := Option.map_eq_some_iff.mp h
      obtain ⟨rfl, rfl⟩ := Prod.mk.inj he
      obtain ⟨rest, hrest⟩ := List.head?_eq_some_iff.mp hm
      exact ⟨form, form', rest, hform, hn, hform', hrest⟩
  · cases h

/-- A list of choices in a line. -/
def inlineSchema : Json := .obj [("type", .str "object"), ("properties", .obj [("k", .obj
  [("type", .str "array"), ("items", .obj [("type", .str "string"), ("enum", .arr [.str "a"])]),
    ("inline", .bool true)])])]

/-- Checkboxes in a line get the limits of a list of items where they are bound to a key. -/
theorem not_bare_key_alike :
    ∃ form form' n m rest, compile {} [] (some inlineSchema) none none = .ok form ∧
      form.layout.find? (Node.isAt (Pointer.child "" "k")) = some n ∧
      compile {} [] (some inlineSchema) (some (.arr [.str (Pointer.child "" "k")])) none =
        .ok form' ∧
      form'.layout = m :: rest ∧ Table.get? n.control.options "maxItems" = none ∧
      (Table.get? m.control.options "maxItems").isSome = true ∧ ¬n.Alike m := by
  have hnodes : (keyNodes? inlineSchema "k").any (fun (n, m) =>
      (Table.get? n.control.options "maxItems").isNone &&
        (Table.get? m.control.options "maxItems").isSome) = true := by
    decide +kernel
  obtain ⟨⟨n, m⟩, hnm, hlimits⟩ := (Option.any_eq_true _ _).mp hnodes
  obtain ⟨form, form', rest, hform, hn, hform', hm⟩ := of_keyNodes? hnm
  obtain ⟨hnone, hsome⟩ := Bool.and_eq_true_iff.mp hlimits
  rw [Option.isNone_iff_eq_none] at hnone
  refine ⟨form, form', n, m, rest, hform, hn, hform', hm, hnone, hsome, fun h => ?_⟩
  have hsame := h.control.options "maxItems"
  rw [hnone] at hsame
  rw [← hsame] at hsome
  cases hsome

end Form

end SchemaForm
