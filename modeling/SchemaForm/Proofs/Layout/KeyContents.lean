/-
Properties and entries that are bound to them.

A property of the form has a control of its own where the whole schema is laid out, and one that
is described by its schema where an entry is bound to its pointer.  The two are described alike
where the schema `Suits`; then they are a `KeyPair`, and the entry is filled in with what the
property contains (`contents_follow`), kind of data by kind of data.
-/
import SchemaForm.Proofs.Layout.Alike
import SchemaForm.Proofs.Layout.Limits
import SchemaForm.Proofs.Layout.TopLevel
import SchemaForm.Proofs.Schema.Options

namespace SchemaForm

open Build Generate Compose

/-! ## Controls of properties -/

namespace Setup

variable {s : Setup} {name type pointer : String} {schema : Json}

/-- The control of a property, before it is titled. -/
def plainControl (s : Setup) (name : String) (schema : Json) (type : String) : Control where
  type
  name := (Pointer.last? (Pointer.child "" name)).filter (· ≠ Pointer.wildcard)
  dataPointer := some (Pointer.child "" name)
  dataType := dataType? schema
  layoutPointer := Pointer.anyItem ""
  options := s.optionsFor [] schema
  widget := s.widget? type

/-- The options of a property that is bound to an entry. -/
def boundOptions (s : Setup) (schema : Json) (type : String) : Members :=
  match type == "checkboxes", schema.get? "items" with
  | true, some items => s.optionsFor (s.optionsFor [] schema) items
  | _, _ =>
      if dataType? schema = some "array" then
        (entryBounds s schema []).writeOptions (s.optionsFor [] schema)
      else s.optionsFor [] schema

/-- The limits of a list leave a number of items. -/
def Limited (s : Setup) (pointer : String) (schema : Json) : Prop :=
  ArrayBounds.lower schema (s.optionsFor [] schema) (Schema.isRequired s.schema pointer) ≤
    ArrayBounds.upper schema (s.optionsFor [] schema) s.options.maxItemsCap

instance (s : Setup) (pointer : String) (schema : Json) : Decidable (s.Limited pointer schema) :=
  inferInstanceAs (Decidable (_ ≤ _))

/-- A bound control of the type is described like a generated one. -/
structure Suits (s : Setup) (pointer : String) (schema : Json) (type : String) : Prop where
  /-- The targets of `copyValueTo` are written as generic pointers. -/
  targets : Table.get? (withCopyTargets (s.boundOptions schema type)) "copyValueTo" =
    Table.get? (s.boundOptions schema type) "copyValueTo"
  /-- A list leaves a number of items. -/
  limits : dataType? schema = some "array" → type.startsWith "checkboxes" = false →
    s.Limited pointer schema
  /-- A list of choices is laid out as plain checkboxes, and what may be chosen has no title. -/
  boxes : dataType? schema = some "array" → type.startsWith "checkboxes" = true →
    type = "checkboxes" ∧ ∃ members, schema.get? "items" = some (.obj members) ∧
      Table.get? (s.optionsFor (s.optionsFor [] schema) (.obj members)) "title" =
        ((Table.get? (s.optionsFor [] schema) "title").bind Json.str?).map Json.str
  /-- Nothing but a list has checkboxes for its items. -/
  lists : dataType? schema ≠ some "array" → type = "checkboxes" → schema.get? "items" = none

theorem Suits.boundOptions_plain (h : s.Suits pointer schema type)
    (hdata : dataType? schema ≠ some "array") :
    s.boundOptions schema type = s.optionsFor [] schema := by
  unfold boundOptions
  split
  · next items hboxes hitems =>
      rw [h.lists hdata (beq_iff_eq.mp hboxes)] at hitems
      cases hitems
  · rw [if_neg hdata]

theorem boundOptions_list (hdata : dataType? schema = some "array")
    (hboxes : type.startsWith "checkboxes" = false) : s.boundOptions schema type =
      (entryBounds s schema []).writeOptions (s.optionsFor [] schema) := by
  unfold boundOptions
  split
  · next htype _ =>
      rw [beq_iff_eq.mp htype] at hboxes
      exact absurd hboxes (by decide +kernel)
  · rw [if_pos hdata]

theorem boundOptions_boxes {items : Json} (hitems : schema.get? "items" = some items) :
    s.boundOptions schema "checkboxes" = s.optionsFor (s.optionsFor [] schema) items := by
  simp only [boundOptions, hitems, beq_self_eq_true]

/-- Whether a schema suits, where no value is copied and no list of choices has a title. -/
def suits? (s : Setup) (pointer : String) (schema : Json) (type : String) : Bool :=
  (Table.get? (s.boundOptions schema type) "copyValueTo").isNone &&
  if dataType? schema = some "array" then
    if type.startsWith "checkboxes" then
      type == "checkboxes" && match schema.get? "items" with
        | some (.obj members) => (Table.get? (s.optionsFor [] schema) "title").isNone &&
            (Table.get? (s.optionsFor (s.optionsFor [] schema) (.obj members)) "title").isNone
        | _ => false
    else decide (s.Limited pointer schema)
  else type != "checkboxes" || (schema.get? "items").isNone

theorem suits_of_suits? (h : s.suits? pointer schema type = true) :
    s.Suits pointer schema type := by
  obtain ⟨hcopy, h⟩ := Bool.and_eq_true_iff.mp h
  rw [Option.isNone_iff_eq_none] at hcopy
  have htargets : Table.get? (withCopyTargets (s.boundOptions schema type)) "copyValueTo" =
      Table.get? (s.boundOptions schema type) "copyValueTo" := by
    simp only [withCopyTargets, hcopy]
  split at h
  · next harray =>
      refine ⟨htargets, fun _ hboxes => ?_, fun _ hboxes => ?_, fun hno => absurd harray hno⟩
      · rw [hboxes, if_neg Bool.false_ne_true] at h
        exact of_decide_eq_true h
      · rw [if_pos hboxes] at h
        obtain ⟨htype, h⟩ := Bool.and_eq_true_iff.mp h
        split at h
        · next members hitems =>
            obtain ⟨hno, hno'⟩ := Bool.and_eq_true_iff.mp h
            rw [Option.isNone_iff_eq_none] at hno hno'
            refine ⟨beq_iff_eq.mp htype, members, hitems, ?_⟩
            rw [hno, hno']
            rfl
        · cases h
  · next hno =>
      refine ⟨htargets, fun harray => absurd harray hno, fun harray => absurd harray hno,
        fun _ htype => ?_⟩
      rw [htype] at h
      exact Option.isNone_iff_eq_none.mp h

end Setup

namespace Generate

variable {ctx : Setup} {name : String}

/-- The request for a property of the form. -/
def keyRequest (name : String) : Request := propertyRequest {} (Pointer.anyItem "") name

theorem keyRequest_schemaPointer (name : String) :
    (keyRequest name).schemaPointer = Pointer.child "/properties" name :=
  propertyRequest_root _ name

theorem keyRequest_isRoot (name : String) : (keyRequest name).isRoot = false :=
  isRoot_of_ne (Pointer.slash_ne_empty _ _)

theorem controlFor_key (hgeneric : ctx.generic (Pointer.child "" name) = Pointer.child "" name)
    (schema : Json) (type : String) (id : Option Nat) :
    controlFor ctx (keyRequest name) schema type id =
      { withTitle (ctx.plainControl name schema type) with id } := by
  have hplace : (keyRequest name).dataPointer = Pointer.child "" name := rfl
  have hlayout : Pointer.genericLayout (keyRequest name).layoutPointer = Pointer.anyItem "" := by
    show Pointer.genericLayout (Pointer.anyItem "") = _
    decide
  have hne : Pointer.anyItem "" ≠ "" := by decide
  rw [controlFor, hplace, hlayout, hgeneric, ← withTitle_id]
  simp only [if_neg hne]
  rfl

end Generate

namespace Compose

variable {ctx : Setup} {c d x y : Control} {pointer name type : String} {schema : Json}
  {options : Members}

/-! ## Controls of entries -/

/-- The control of an entry that is the pointer of a property, before it is bound. -/
def keyControl (name : String) (id : Nat) : Control :=
  (entryNode { dataPointer := some (Pointer.child "" name) } [] (Pointer.item "" 0) id).control

theorem boundControl_key (hgeneric : ctx.generic (Pointer.child "" name) = Pointer.child "" name)
    (schema : Json) (type : String) (id : Nat) :
    boundControl ctx (keyControl name id) = { ctx.plainControl name schema type with
      id := some id, type := "", dataType := none, options := [], widget := none } := by
  have hplace : (keyControl name id).dataPointer = some (Pointer.child "" name) := rfl
  have hlayout : (keyControl name id).layoutPointer = Pointer.anyItem "" := by
    show Pointer.genericLayout (Pointer.item "" 0) = _
    decide
  rw [boundControl, hplace, Option.getD_some, hgeneric]
  simp only [hlayout]
  rfl

theorem describe_key (hgeneric : ctx.generic (Pointer.child "" name) = Pointer.child "" name)
    (htype : Schema.controlType? schema [] = some type) (id : Nat) :
    (describe ctx schema (boundControl ctx (keyControl name id))).1 =
      { ctx.plainControl name schema type with
        id := some id, options := ctx.boundOptions schema type, widget := none } := by
  rw [boundControl_key hgeneric schema type]
  have hbound : boundType ctx schema { ctx.plainControl name schema type with
      id := some id, type := "", dataType := none, options := [], widget := none } = type := by
    rw [boundType, if_neg fun hboth => hboth.1 rfl, htype]
    rfl
  simp only [describe, hbound, Setup.boundOptions]
  cases type == "checkboxes" with
  | false => cases schema.get? "items" <;> (dsimp only; split <;> rfl)
  | true =>
      cases schema.get? "items" with
      | none =>
          dsimp only
          split <;> rfl
      | some items => rfl

/-- The control that the schema of a property describes is the one of the property, with options
of its own. -/
theorem describedControl_key
    (hgeneric : ctx.generic (Pointer.child "" name) = Pointer.child "" name)
    (htype : Schema.controlType? schema [] = some type) (hsuits : ctx.Suits pointer schema type)
    (id : Nat) :
    (describedControl ctx pointer schema (keyControl name id)).Alike
      (requiredControl ctx pointer
        { ctx.plainControl name schema type with options := ctx.boundOptions schema type }) := by
  have hsame : Table.get? (requiredControl ctx pointer { ctx.plainControl name schema type with
      options := ctx.boundOptions schema type }).options "copyValueTo" =
        Table.get? (ctx.boundOptions schema type) "copyValueTo" :=
    get?_requiredControl (by decide)
  have hoptions := withCopyTargets_agree hsuits.targets hsame
  refine .symm ⟨some id, _, ?_, hoptions.symm⟩
  unfold describedControl
  rw [describe_key hgeneric htype]
  unfold requiredControl
  dsimp only
  split <;> rfl

/-- The choices of a list give no title: it may be written before them or after. -/
theorem boxes_alike {items : Json} (hoptions : c.options = options)
    (htitle : Table.get? (ctx.optionsFor options items) "title" =
      ((Table.get? options "title").bind Json.str?).map Json.str) :
    Control.Alike { withTitle c with options := ctx.optionsFor (withTitle c).options items }
      (withTitle { c with options := ctx.optionsFor options items }) := by
  subst hoptions
  have hsame : Control.title? { c with options := ctx.optionsFor c.options items } = c.title? := by
    rw [Control.title?, Control.title?, htitle]
    cases (Table.get? c.options "title").bind Json.str? <;> rfl
  unfold withTitle
  rw [hsame]
  dsimp only
  split
  · next text hnone hname =>
      have hnone' : Table.get? (ctx.optionsFor c.options items) "title" = none := by
        rw [Control.title?] at hnone
        rw [htitle, hnone]
        rfl
      refine .of_agree _ fun key => ?_
      have htitled : Schema.Titled (.str (Text.title text)) (ctx.optionsFor c.options items)
          (ctx.optionsFor (Table.insert c.options "title" (.str (Text.title text))) items) :=
        Schema.updateOptions_titled rfl hnone'
      exact (htitled key).trans (Schema.titled_insert _ _ key).symm
  · exact .refl _

/-! ## Contents -/

/-- The node of a property and the one of its entry, when the one is required and the other is
titled. -/
def Agrees (ctx : Setup) (pointer : String) (mapped : Mapped Node) (m : Node) : Prop :=
  ∃ n, mapped = .one n ∧ (n.modify (requiredControl ctx pointer)).Alike (m.modify withTitle)

/-- So they are if their controls are that of `y`, but for the title and the requirement. -/
theorem agrees_mk {ns ms : List Node} (hd : d.Alike (requiredControl ctx pointer y))
    (hx : x.Alike (withTitle y)) (hitems : Node.Same ns ms) :
    Agrees ctx pointer (.one (.mk x ns)) (.mk d ms) :=
  ⟨_, rfl, required_alike_titled hd hx, hitems⟩

/-- The control of a property and that of its entry. -/
structure KeyPair (ctx : Setup) (name : String) (schema : Json) (type : String) (x d : Control) :
    Prop where
  schemaAt? : ctx.resolved.schemaAt? (Pointer.child "/properties" name) = some schema
  suits : ctx.Suits (Pointer.child "/properties" name) schema type
  titled : ∃ id, x = { withTitle (ctx.plainControl name schema type) with id }
  bound : d.Alike (requiredControl ctx (Pointer.child "/properties" name)
    { ctx.plainControl name schema type with options := ctx.boundOptions schema type })

namespace KeyPair

variable {D : String → Prop} {build : Builder} (h : KeyPair ctx name schema type x d)

include h

theorem alike : x.Alike (withTitle (ctx.plainControl name schema type)) := by
  obtain ⟨id, rfl⟩ := h.titled
  exact .symm ⟨id, _, rfl, .refl _⟩

/-- The two are the same but for their options. -/
theorem same_left {β : Type} {f : Control → β} (hf : Control.Blind f) :
    f x = f (ctx.plainControl name schema type) :=
  (h.alike.same hf).symm.trans (withTitle_same hf _)

theorem same_right {β : Type} {f : Control → β} (hf : Control.Blind f) :
    f d = f (ctx.plainControl name schema type) :=
  (h.bound.symm.same hf).trans ((requiredControl_same hf _).trans (hf _ none _))

theorem same {β : Type} {f : Control → β} (hf : Control.Blind f) : f x = f d :=
  (h.same_left hf).trans (h.same_right hf).symm

theorem dataType_left : x.dataType = dataType? schema :=
  h.same_left (f := Control.dataType) fun _ _ _ => rfl

theorem dataType_right : d.dataType = dataType? schema :=
  h.same_right (f := Control.dataType) fun _ _ _ => rfl

theorem type_left : x.type = type := h.same_left (f := Control.type) fun _ _ _ => rfl

theorem type_right : d.type = type := h.same_right (f := Control.type) fun _ _ _ => rfl

theorem dataPointer : d.dataPointer = some (Pointer.child "" name) :=
  h.same_right (f := Control.dataPointer) fun _ _ _ => rfl

theorem layoutPointer : d.layoutPointer = Pointer.anyItem "" :=
  h.same_right (f := Control.layoutPointer) fun _ _ _ => rfl

theorem layoutPointer_eq : x.layoutPointer = d.layoutPointer :=
  h.same (f := Control.layoutPointer) fun _ _ _ => rfl

/-- What an entry contains is asked for as what the property contains. -/
theorem boundRequest_eq : boundRequest (Pointer.child "/properties" name) d = keyRequest name := by
  have hempty : "" ++ "/properties" = "/properties" := String.empty_append
  show _ = ({} : Request).within _ (Pointer.child ("" ++ "/properties") name) _
  rw [hempty, boundRequest, h.dataPointer, h.layoutPointer]
  rfl

theorem found : ctx.resolved.schemaAt? (keyRequest name).schemaPointer = some schema :=
  (congrArg _ (keyRequest_schemaPointer name)).trans h.schemaAt?

/-- Where there are no items the entry has no other options. -/
theorem bound_plain (hdata : dataType? schema ≠ some "array") :
    d.Alike (requiredControl ctx (Pointer.child "/properties" name)
      (ctx.plainControl name schema type)) := by
  have hbound := h.bound
  rw [h.suits.boundOptions_plain hdata] at hbound
  exact hbound

/-! ### Kinds of contents -/

theorem object_follows (htwins : Twins ctx D build (run ctx) (keyRequest name))
    (hobject : dataType? schema = some "object") :
    Follows D (Agrees ctx (Pointer.child "/properties" name))
      (do
        let children ← buildProperties build (keyRequest name) schema x.layoutPointer
        return if (keyRequest name).isRoot then .many children else .one (.mk x children))
      (expandBound ctx (Pointer.child "/properties" name) d) := by
  have hno : dataType? schema ≠ some "array" := by
    rw [hobject]
    decide
  have hne : d.dataPointer.getD "" ≠ "" := by
    rw [h.dataPointer]
    exact Pointer.slash_ne_empty _ _
  rw [expandBound_object h.schemaAt? (h.dataType_right.trans hobject) hne, h.boundRequest_eq,
    h.layoutPointer_eq, keyRequest_isRoot]
  refine (buildProperties_follows htwins h.found _).bind fun ns ms hns => .pure ?_
  exact agrees_mk (h.bound_plain hno) h.alike hns

theorem leaf_follows (hobject : dataType? schema ≠ some "object")
    (harray : dataType? schema ≠ some "array") (href : dataType? schema ≠ some "$ref") :
    Follows D (Agrees ctx (Pointer.child "/properties" name)) (pure (.one (.mk x [])))
      (expandBound ctx (Pointer.child "/properties" name) d) := by
  have hdata := h.dataType_right
  rw [expandBound_leaf (by rwa [hdata]) (fun he => absurd (hdata.symm.trans he) harray)
    (by rwa [hdata])]
  exact .pure (agrees_mk (h.bound_plain harray) h.alike (.refl []))

theorem reference_follows (htwins : Twins ctx D build (run ctx) (keyRequest name))
    (href : dataType? schema = some "$ref") :
    Follows D (Agrees ctx (Pointer.child "/properties" name))
      (do return .one (.mk (← buildReference ctx build (keyRequest name) x) []))
      (expandBound ctx (Pointer.child "/properties" name) d) := by
  have hno : dataType? schema ≠ some "array" := by
    rw [href]
    decide
  have hitem : x.arrayItem = d.arrayItem := h.same (f := Control.arrayItem) fun _ _ _ => rfl
  have hkind : x.itemKind = d.itemKind := h.same (f := Control.itemKind) fun _ _ _ => rfl
  rw [expandBound_reference h.schemaAt? (h.dataType_right.trans href), h.boundRequest_eq]
  refine (buildReference_follows htwins h.found href hitem hkind).bind
    fun made made' hmade => .pure ?_
  obtain ⟨rfl, rfl⟩ := hmade
  -- the label of a reference is its title, whatever title it had
  have hd := (referenceControl_alike (r := keyRequest name) (h.bound_plain hno)
    (ctx.dataKey (keyRequest name).fullPointer)).trans (referenceControl_requiredControl _ _ _)
  refine agrees_mk hd ?_ (.refl [])
  rw [withTitle_referenceControl]
  exact (referenceControl_alike h.alike _).trans (referenceControl_withTitle ctx _ _ _)

theorem boxes_follow (harray : dataType? schema = some "array")
    (hboxes : type.startsWith "checkboxes" = true) :
    Follows D (Agrees ctx (Pointer.child "/properties" name))
      (match (schema.get? "items").filter Json.isObj with
        | some items => pure (.one (.mk { x with options := ctx.optionsFor x.options items } []))
        | none => pure (.one (.mk x [])))
      (expandBound ctx (Pointer.child "/properties" name) d) := by
  have hleaf : expandBound ctx (Pointer.child "/properties" name) d = pure (.mk d []) := by
    refine expandBound_leaf ?_ (fun _ => by rw [h.type_right, hboxes]) ?_
    · rw [h.dataType_right, harray]
      decide
    · rw [h.dataType_right, harray]
      decide
  obtain ⟨rfl, members, hitems, htitle⟩ := h.suits.boxes harray hboxes
  have hbound := h.bound
  rw [Setup.boundOptions_boxes hitems] at hbound
  have hchosen := boxes_alike (c := ctx.plainControl name schema "checkboxes") rfl htitle
  obtain ⟨id, rfl⟩ := h.titled
  rw [hitems, hleaf]
  exact .pure (agrees_mk hbound (.trans ⟨none, _, rfl, .refl _⟩ hchosen) (.refl []))

/-! ### Lists -/

/-- The bounds of an entry are the first ones of its list. -/
theorem bound_list (hdata : dataType? schema = some "array")
    (hboxes : type.startsWith "checkboxes" = false) :
    d.Alike (requiredControl ctx (Pointer.child "/properties" name)
      (withBounds (entryBounds ctx schema []) (ctx.plainControl name schema type))) := by
  have hbound := h.bound
  rw [Setup.boundOptions_list hdata hboxes] at hbound
  exact hbound

/-- Bounds that are written already are found again, with the requirement. -/
theorem boundsFor_right (hdata : dataType? schema = some "array")
    (hboxes : type.startsWith "checkboxes" = false) :
    boundsFor ctx (keyRequest name) schema d =
      boundsFor ctx (keyRequest name) schema (ctx.plainControl name schema type) := by
  have hget : ∀ key ∈ ["maxItems", "minItems", "listItems"], Table.get? d.options key =
      Table.get? (withBounds (entryBounds ctx schema [])
        (ctx.plainControl name schema type)).options key := by
    intro key hkey
    have hne : key ≠ "required" := by
      rintro rfl
      exact absurd hkey (by decide)
    rw [(h.bound_list hdata hboxes).options key, get?_requiredControl hne]
  have hbounds : Control.HasBounds { options := (withBounds (entryBounds ctx schema [])
      (ctx.plainControl name schema type)).options } (entryBounds ctx schema []) :=
    ArrayBounds.writeOptions_hasBounds _ { options := ctx.optionsFor [] schema }
  unfold boundsFor
  rw [ArrayBounds.of_congr hget, keyRequest_schemaPointer]
  exact ArrayBounds.of_written hbounds (h.suits.limits hdata hboxes)

/-- A title is none of the limits. -/
theorem boundsFor_left : boundsFor ctx (keyRequest name) schema x =
    boundsFor ctx (keyRequest name) schema (ctx.plainControl name schema type) := by
  refine ArrayBounds.of_congr (fun key hkey => ?_) _
  have hne : key ≠ "title" := by
    rintro rfl
    exact absurd hkey (by decide)
  rw [h.alike.options key, get?_withTitle _ hne]

theorem list_follows (htwins : Twins ctx D build (run ctx) (keyRequest name))
    (hdata : dataType? schema = some "array") (hboxes : type.startsWith "checkboxes" = false) :
    Follows D (Agrees ctx (Pointer.child "/properties" name))
      (do return .one (← buildArray ctx build (keyRequest name) schema x))
      (expandBound ctx (Pointer.child "/properties" name) d) := by
  have hd : (boundedControl ctx (keyRequest name) schema d).Alike
      (requiredControl ctx (Pointer.child "/properties" name)
        (withBounds (boundsFor ctx (keyRequest name) schema (ctx.plainControl name schema type))
          (ctx.plainControl name schema type))) := by
    rw [boundedControl, h.boundsFor_right hdata hboxes]
    exact bounds_alike (h.bound_list hdata hboxes)
  have hx : (boundedControl ctx (keyRequest name) schema x).Alike (withTitle
      (withBounds (boundsFor ctx (keyRequest name) schema (ctx.plainControl name schema type))
        (ctx.plainControl name schema type))) := by
    rw [boundedControl, h.boundsFor_left]
    exact (withBounds_alike h.alike _).trans (withTitle_withBounds _ _).symm
  have hflag : ∀ key ∈ ["removable", "addable"],
      (boundedControl ctx (keyRequest name) schema x).flag key true =
        (boundedControl ctx (keyRequest name) schema d).flag key true := by
    intro key hkey
    have htitle : key ≠ "title" := by
      rintro rfl
      exact absurd hkey (by decide)
    have hrequired : key ≠ "required" := by
      rintro rfl
      exact absurd hkey (by decide)
    rw [hx.flag, hd.flag, flag_withTitle _ htitle, flag_requiredControl _ hrequired]
  have hlike : LikeArray (boundedControl ctx (keyRequest name) schema x)
      (boundedControl ctx (keyRequest name) schema d) :=
    ⟨h.same (f := Control.dataPointer) fun _ _ _ => rfl, h.layoutPointer_eq,
      hflag _ (by decide), hflag _ (by decide)⟩
  rw [expandBound_array h.schemaAt? (h.dataType_right.trans hdata) (by rw [h.type_right, hboxes]),
    h.boundRequest_eq, ← bind_pure (buildArray ctx (run ctx) (keyRequest name) schema d)]
  refine (buildArray_follows htwins h.found
    (h.boundsFor_left.trans (h.boundsFor_right hdata hboxes).symm) hlike).bind
      fun n m hnm => .pure ?_
  obtain ⟨hn, hm, hitems⟩ := hnm
  cases n
  cases m
  obtain rfl := hn
  obtain rfl := hm
  exact agrees_mk hd hx hitems

/-- **Contents.**  The entry of a property is filled in with what the property contains. -/
theorem contents_follow (htwins : Twins ctx D build (run ctx) (keyRequest name)) :
    Follows D (Agrees ctx (Pointer.child "/properties" name))
      (complete ctx build (keyRequest name) schema x)
      (expandBound ctx (Pointer.child "/properties" name) d) := by
  have hdata := h.dataType_left
  unfold complete
  split
  · next hobject => exact h.object_follows htwins (hdata.symm.trans hobject)
  · next harray =>
      have harray := hdata.symm.trans harray
      split
      · next hboxes => exact h.boxes_follow harray (by rwa [h.type_left] at hboxes)
      · next hboxes =>
          rw [h.type_left, Bool.not_eq_true] at hboxes
          exact h.list_follows htwins harray hboxes
  · next href => exact h.reference_follows htwins (hdata.symm.trans href)
  · next hobject harray href =>
      rw [hdata] at hobject harray href
      exact h.leaf_follows hobject harray href

end KeyPair

end Compose

end SchemaForm
