/-
The recorded sizes of arrays.

The bounds of an array are recorded when it is built, once, under the key of its items
without the last wildcard (`boundsKey`).  For an array that is built in place this need
not be its own key, and an array elsewhere in the schema may have been recorded before
under either one (`Missized`).  If not, its entry has the bounds that its control has; and
where bounds are recorded there is an array, unless it is one that is not at the key
(`Foreign`):

    ¬Missized form r c  →  the entry of the control has the bounds of the control
    ¬Foreign form key   →  there is an array at the key

(`Form.sizes_recorded`).  Without references neither happens to an array under a plain
name (`Form.not_missized`, `Form.not_foreign`).
-/
import SchemaForm.Proofs.Layout.Adding
import SchemaForm.Proofs.Layout.Records
import SchemaForm.Proofs.Layout.Unreferenced
import SchemaForm.Proofs.Schema.Options

namespace SchemaForm

open Build

/-! ## Controls in place -/

/-- The control of an array that is laid out as its items. -/
def Control.isArray (c : Control) : Bool :=
  c.dataType == some "array" && !c.type.startsWith "checkboxes"

/-- An item that is built in place: a fixed position that cannot be removed. -/
def Control.isFixed (c : Control) : Bool :=
  c.itemKind == some .tuple && !c.flag "removable" true

/-- The control holds the bounds among its options. -/
structure Control.HasBounds (c : Control) (b : ArrayBounds) : Prop where
  maxItems : Table.get? c.options "maxItems" = some (Json.nat b.maxItems)
  minItems : Table.get? c.options "minItems" = some (Json.nat b.minItems)
  tupleItems : Table.get? c.options "tupleItems" = some (Json.nat b.tupleItems)
  listItems : Table.get? c.options "listItems" = some (Json.nat b.listItems)

namespace Node

mutual

/-- The controls that are not copied from a template. -/
def inPlace : Node → List Control
  | mk c items => c :: inPlaceAll (c.dataType == some "array") items

def inPlaceAll (array : Bool) : List Node → List Control
  | [] => []
  | n :: rest => (if array && !n.control.isFixed then [] else inPlace n) ++ inPlaceAll array rest

end

variable {n : Node} {ns : List Node} {c d : Control} {f : Control → Control} {array : Bool}

theorem mem_inPlaceAll :
    c ∈ inPlaceAll array ns ↔
      ∃ n ∈ ns, (array = true → n.control.isFixed = true) ∧ c ∈ n.inPlace := by
  induction ns with
  | nil => simp [inPlaceAll]
  | cons n ns ih =>
      rw [inPlaceAll, List.mem_append, ih]
      cases array <;> cases hfixed : n.control.isFixed <;> simp [hfixed]

theorem mem_inPlace_mk :
    c ∈ (mk d ns).inPlace ↔
      c = d ∨ ∃ n ∈ ns, (d.dataType = some "array" → n.control.isFixed = true) ∧
        c ∈ n.inPlace := by
  rw [inPlace, List.mem_cons, mem_inPlaceAll, beq_iff_eq]

theorem control_inPlace (n : Node) : n.control ∈ n.inPlace := by
  cases n
  exact List.mem_cons_self

theorem mem_inPlace_modify (hf : ∀ c, (f c).dataType = c.dataType) (h : c ∈ (n.modify f).inPlace) :
    c = f n.control ∨ c ∈ n.inPlace := by
  cases n with
  | mk d items =>
      rcases mem_inPlace_mk.mp h with rfl | ⟨child, hchild, hfixed, hc⟩
      · exact .inl rfl
      · rw [hf] at hfixed
        exact .inr (mem_inPlace_mk.mpr (.inr ⟨child, hchild, hfixed, hc⟩))

mutual

theorem inPlace_map (ha : ∀ c, (f c).dataType = c.dataType) (hf : ∀ c, (f c).isFixed = c.isFixed) :
    ∀ n : Node, (n.map f).inPlace = n.inPlace.map f
  | mk c items => by
      rw [map, inPlace, inPlace, ha, inPlaceAll_mapAll ha hf (c.dataType == some "array") items,
        List.map_cons]

theorem inPlaceAll_mapAll (ha : ∀ c, (f c).dataType = c.dataType)
    (hf : ∀ c, (f c).isFixed = c.isFixed) (array : Bool) :
    ∀ ns : List Node, inPlaceAll array (mapAll f ns) = (inPlaceAll array ns).map f
  | [] => rfl
  | n :: ns => by
      rw [mapAll, inPlaceAll, inPlaceAll, control_map, hf, inPlace_map ha hf n,
        inPlaceAll_mapAll ha hf array ns, List.map_append]
      split <;> rfl

end

end Node

/-! ## Bounds among options -/

/-- The bounds that are set depend on the limits among the options only. -/
theorem ArrayBounds.of_congr {schema : Json} {options options' : Members} {cap : Nat}
    {required : Bool}
    (h : ∀ key ∈ ["maxItems", "minItems", "listItems"],
      Table.get? options key = Table.get? options' key) (k : Counting) :
    of k schema options cap required = of k schema options' cap required := by
  simp only [of, lower, upper, h "maxItems" (by decide), h "minItems" (by decide),
    h "listItems" (by decide)]

theorem ArrayBounds.writeOptions_hasBounds (b : ArrayBounds) (c : Control) :
    Control.HasBounds { c with options := b.writeOptions c.options } b := by
  constructor <;> simp [ArrayBounds.writeOptions, Table.insertAll, Table.get?_insert]

theorem Control.HasBounds.congr {c d : Control} {b : ArrayBounds} (h : c.HasBounds b)
    (he : d.options = c.options) : d.HasBounds b :=
  ⟨he ▸ h.maxItems, he ▸ h.minItems, he ▸ h.tupleItems, he ▸ h.listItems⟩

theorem Control.HasBounds.setOption {c : Control} {b : ArrayBounds} (h : c.HasBounds b)
    {key : String} (hkey : key ∉ ["maxItems", "minItems", "tupleItems", "listItems"])
    (value : Json) : (c.setOption key value).HasBounds b := by
  have hget : ∀ other ∈ ["maxItems", "minItems", "tupleItems", "listItems"],
      Table.get? (c.setOption key value).options other = Table.get? c.options other := by
    intro other hother
    have hne : key ≠ other := by
      rintro rfl
      exact hkey hother
    rw [Control.setOption, Table.get?_insert, if_neg hne]
  constructor
  · rw [hget _ (by decide), h.maxItems]
  · rw [hget _ (by decide), h.minItems]
  · rw [hget _ (by decide), h.tupleItems]
  · rw [hget _ (by decide), h.listItems]

namespace Generate

variable {ctx : Setup} {S : Request → Prop} {p q : Progress} {goal : Goal} {r r' : Request}
  {schema : Json} {c c' : Control} {n : Node} {b b' : ArrayBounds} {f : Control → Control}

/-! ## Controls of requests -/

theorem controlFor_itemKind (ctx : Setup) (r : Request) (schema : Json) (type : String)
    (id : Option Nat) : (controlFor ctx r schema type id).itemKind = r.kind := by
  simp only [controlFor, withTitle]
  split <;> rfl

/-- An item may be removed if its request says so, whatever its schema says. -/
theorem controlFor_removable {kind : ItemKind} (hkind : r.kind = some kind) (schema : Json)
    (type : String) (id : Option Nat) :
    Table.get? (controlFor ctx r schema type id).options "removable" =
      some (.bool r.removable) := by
  have hown : Table.get? (ctx.optionsFor [("removable", .bool r.removable)] schema) "removable" =
      some (.bool r.removable) :=
    Schema.get?_updateOptions schema _ (by decide) rfl (by decide)
  have hne : "title" ≠ "removable" := by decide
  simp only [controlFor, withTitle, hkind, Option.isSome_some, if_true]
  split
  · rw [Control.setOption, Table.get?_insert, if_neg hne]
    exact hown
  · exact hown

/-- An own option is none of the limits of an array. -/
theorem limits_optionsFor (ctx : Setup) (schema : Json) {name : String} {value : Json}
    (hname : Schema.optionName name = name)
    (hlimits : name ∉ ["maxItems", "minItems", "listItems"]) :
    ∀ key ∈ ["maxItems", "minItems", "listItems"],
      Table.get? (ctx.optionsFor [(name, value)] schema) key =
        Table.get? (ctx.optionsFor [] schema) key := by
  intro key hkey
  have hderived : key ∉ Schema.derivedKeys := by
    revert key
    decide
  exact Schema.get?_updateOptions_other _ _ hname (fun he => hlimits (he ▸ hkey)) hderived

/-- The limits among the options of a control are those of its schema. -/
theorem limits_controlFor (ctx : Setup) (r : Request) (schema : Json) (type : String)
    (id : Option Nat) :
    ∀ key ∈ ["maxItems", "minItems", "listItems"],
      Table.get? (controlFor ctx r schema type id).options key =
        Table.get? (ctx.optionsFor [] schema) key := by
  intro key hkey
  have htitle : key ≠ "title" := by
    rintro rfl
    exact absurd hkey (by decide)
  rw [controlFor, get?_withTitle _ htitle]
  dsimp only
  split
  · exact limits_optionsFor ctx schema (by decide) (by decide) key hkey
  · rfl

/-- The bounds of an array are those of its schema, whoever asks for it. -/
theorem Sizes.unique (h : Sizes ctx S r b) (h' : Sizes ctx S r' b')
    (hsame : r'.schemaPointer = r.schemaPointer) : b' = b := by
  have hbounds : ∀ {r : Request} {schema : Json} {c : Control}, Answers ctx S r schema c →
      boundsFor ctx r schema c = .of .words schema (ctx.optionsFor [] schema)
        ctx.options.maxItemsCap (Schema.isRequired ctx.schema r.schemaPointer) := by
    intro r schema c ha
    obtain ⟨type, id, -, rfl⟩ := ha.control
    exact ArrayBounds.of_congr (limits_controlFor ctx r schema type id) _
  obtain ⟨schema, c, hc, -, rfl⟩ := h
  obtain ⟨schema', c', hc', -, rfl⟩ := h'
  have hfound := hc'.found
  rw [hsame, hc.found] at hfound
  obtain rfl := Option.some.inj hfound
  rw [hbounds hc, hbounds hc', hsame]

/-- The control is that of an array that is generated in place for the request, with its
bounds recorded. -/
structure ArrayOf (ctx : Setup) (S : Request → Prop) (q : Progress) (r : Request)
    (c : Control) : Prop where
  comes : Comes ctx S r
  outside : r.inTemplate = false
  dataPointer : c.dataPointer = some (ctx.generic r.dataPointer)
  recorded : (q.dataMap.bounds? (boundsKey ctx r)).isSome = true
  /-- It holds its own bounds, unless it was told those of the array that it is in. -/
  bounds : ∃ b, Sizes ctx S r b ∧ (c.isReference = false → c.HasBounds b)

/-- All arrays that are in place in the node are generated for requests. -/
def Laid (ctx : Setup) (S : Request → Prop) (q : Progress) (n : Node) : Prop :=
  ∀ c ∈ n.inPlace, c.isArray = true → ∃ r, ArrayOf ctx S q r c

/-- What a node derived for a goal is like outside of templates, and as a template. -/
def Goal.Lays (ctx : Setup) (S : Request → Prop) (q : Progress) : Goal → Node → Prop
  | .request r, n => (r.inTemplate = false → Laid ctx S q n) ∧
      ((r.kind = some .tuple → r.removable = true) → n.control.isFixed = true →
        n.items = [] ∧ n.control.isArray = false)
  | .property r, n => r.inTemplate = false → Laid ctx S q n
  | .item r _, n => r.inTemplate = false → n.control.isFixed = true → Laid ctx S q n

/-- A change of controls that leaves arrays what they are. -/
structure KeepsArrays (f : Control → Control) : Prop where
  dataPointer : ∀ c, (f c).dataPointer = c.dataPointer
  dataType : ∀ c, (f c).dataType = c.dataType
  isArray : ∀ c, (f c).isArray = c.isArray
  isReference : ∀ c, (f c).isReference = c.isReference

theorem ArrayOf.congr (h : ArrayOf ctx S q r c) (hf : KeepsArrays f)
    (hb : c.isReference = false → ∀ b, c.HasBounds b → (f c).HasBounds b) :
    ArrayOf ctx S q r (f c) := by
  obtain ⟨b, hsizes, hown⟩ := h.bounds
  refine ⟨h.comes, h.outside, (hf.dataPointer c).trans h.dataPointer, h.recorded, b, hsizes, ?_⟩
  intro href
  have hplain : c.isReference = false := (hf.isReference c).symm.trans href
  exact hb hplain b (hown hplain)

theorem Laid.modify (h : Laid ctx S q n) (hf : KeepsArrays f)
    (hb : n.control.isReference = false → ∀ b, n.control.HasBounds b → (f n.control).HasBounds b) :
    Laid ctx S q (n.modify f) := by
  intro c hc ht
  rcases Node.mem_inPlace_modify hf.dataType hc with rfl | hc
  · obtain ⟨r, hr⟩ := h _ (Node.control_inPlace n) ((hf.isArray _).symm.trans ht)
    exact ⟨r, hr.congr hf hb⟩
  · exact h c hc ht

theorem Laid.leaf (h : c.isArray = false) : Laid ctx S q (.mk c []) := by
  intro d hd ht
  rcases Node.mem_inPlace_mk.mp hd with rfl | ⟨n, hn, -⟩
  · rw [h] at ht
    cases ht
  · exact absurd hn List.not_mem_nil

theorem Laid.around {items : List Node} (hc : c.isArray = true → ∃ r, ArrayOf ctx S q r c)
    (h : ∀ n ∈ items, (c.dataType = some "array" → n.control.isFixed = true) → Laid ctx S q n) :
    Laid ctx S q (.mk c items) := by
  intro d hd ht
  rcases Node.mem_inPlace_mk.mp hd with rfl | ⟨n, hn, hfixed, hd⟩
  · exact hc ht
  · exact h n hn hfixed d hd ht

theorem isArray_of_ne (h : c.dataType ≠ some "array") : c.isArray = false := by
  rw [Control.isArray, beq_false_of_ne h, Bool.false_and]

/-- A control that may be removed is not fixed. -/
theorem isFixed_of_removable {c : Control}
    (h : c.itemKind = some .tuple → Table.get? c.options "removable" = some (.bool true)) :
    c.isFixed = false := by
  unfold Control.isFixed
  by_cases hkind : c.itemKind = some .tuple
  · have hflag : c.flag "removable" true = true := by
      rw [Control.flag, h hkind]
      rfl
    rw [hflag, Bool.not_true, Bool.and_false]
  · rw [beq_false_of_ne hkind, Bool.false_and]

theorem Answers.removable (h : Answers ctx S r schema c)
    (hr : r.kind = some .tuple → r.removable = true) :
    c.itemKind = some .tuple → Table.get? c.options "removable" = some (.bool true) := by
  obtain ⟨type, id, -, rfl⟩ := h.control
  rw [controlFor_itemKind]
  intro hkind
  rw [controlFor_removable hkind, hr hkind]

theorem keepsArrays_setOption (key : String) (value : Json) :
    KeepsArrays (·.setOption key value) :=
  ⟨fun _ => rfl, fun _ => rfl, fun _ => rfl, fun _ => rfl⟩

theorem keepsArrays_withLimits (bounds : ArrayBounds) : KeepsArrays (withLimits bounds) :=
  ⟨fun _ => rfl, fun _ => rfl, fun _ => rfl, fun _ => rfl⟩

theorem isFixed_setOption {key : String} (hkey : key ≠ "removable") (value : Json) (c : Control) :
    (c.setOption key value).isFixed = c.isFixed := by
  rw [Control.isFixed, Control.flag, Control.setOption, Table.get?_insert, if_neg hkey]
  rfl

theorem isFixed_withLimits (bounds : ArrayBounds) (c : Control) :
    (withLimits bounds c).isFixed = c.isFixed := by
  rw [withLimits, isFixed_setOption (by decide), isFixed_setOption (by decide)]

/-- A copy is an item of the same kind. -/
theorem isFixed_place (n : Node) (relative : Bool) (site : Site) (last : Nat) :
    ((Template.of (storedNode relative n) relative).place site last).1.control.isFixed =
      n.control.isFixed := by
  obtain ⟨id, hid⟩ := (Template.of (storedNode relative n) relative).control_place site last
  rw [hid]
  cases n
  cases relative <;> rfl

/-- A copy of a node without items has none. -/
theorem place_leaf (hitems : n.items = []) (relative : Bool) (site : Site) (last : Nat) :
    ∃ c, ((Template.of (storedNode relative n) relative).place site last).1 = .mk c [] ∧
      c.isArray = n.control.isArray := by
  cases n with
  | mk c items =>
      obtain rfl : items = [] := hitems
      cases relative with
      | true => exact ⟨_, rfl, rfl⟩
      | false => exact ⟨_, rfl, rfl⟩

/-- Checkboxes are not laid out as items. -/
theorem isArray_leaf (h : c.dataType = some "array" → c.type.startsWith "checkboxes" = true)
    (options : Members) : ({ c with options } : Control).isArray = false := by
  unfold Control.isArray
  by_cases ht : c.dataType = some "array"
  · simp only [h ht, Bool.not_true, Bool.and_false]
  · exact isArray_of_ne (c := { c with options }) ht

theorem isArray_reference (ht : c.dataType = some "$ref") (name : String) :
    (referenceControl ctx r c name).isArray = false := by
  have htype : (referenceControl ctx r c name).dataType = c.dataType := by
    simp only [referenceControl]
    split <;> rfl
  refine isArray_of_ne ?_
  rw [htype, ht]
  decide

/-- The control of an item that may be removed is not fixed, with its bounds either. -/
theorem Answers.isFixed_bounded (h : Answers ctx S r schema c)
    (hr : r.kind = some .tuple → r.removable = true) :
    (boundedControl ctx r schema c).isFixed = false := by
  refine isFixed_of_removable fun hkind => ?_
  have hown := h.removable hr hkind
  simpa [boundedControl, ArrayBounds.writeOptions, Table.insertAll, Table.get?_insert] using hown

theorem isFixed_add (array : Control) (name : String) (relative : Bool) (label : String)
    (bounds : ArrayBounds) (id : Nat) :
    (addControl ctx array name relative label bounds id).control.isFixed = false := by
  have hkind : (some ItemKind.list == some ItemKind.tuple) = false := by decide
  simp only [addControl, Node.control, Control.isFixed, hkind, Bool.false_and]

/-- **Arrays in place.** -/
theorem Derives.lays (h : Derives ctx S NoneGiven q goal n) : goal.Lays ctx S q n := by
  induction h with
  | leaf options _ hboxes =>
      have hnone := isArray_leaf hboxes options
      exact ⟨fun _ => .leaf hnone, fun _ _ => ⟨rfl, hnone⟩⟩
  | @object r schema c children ha ht _ _ ih =>
      have hnone : c.isArray = false := isArray_of_ne (by rw [ht]; decide)
      constructor
      · intro hout
        refine .around (fun harray => ?_) fun n hn _ => ih n hn hout
        exact absurd (hnone.symm.trans harray) Bool.false_ne_true
      · intro hr hfixed
        have hfree : c.isFixed = false := isFixed_of_removable (ha.removable hr)
        exact absurd (hfree.symm.trans hfixed) Bool.false_ne_true
  | @array r schema c items ha ht hrecorded _ ih =>
      have hbounds : (boundedControl ctx r schema c).HasBounds (boundsFor ctx r schema c) :=
        ArrayBounds.writeOptions_hasBounds _ c
      constructor
      · intro hout
        refine .around (fun _ => ⟨r, ha.comes, hout, ha.dataPointer, hrecorded, _,
          ⟨schema, c, ha, ht, rfl⟩, fun _ => hbounds⟩) ?_
        exact fun n hn hfixed => ih n hn hout (hfixed ht)
      · intro hr hfixed
        exact absurd ((ha.isFixed_bounded hr).symm.trans hfixed) Bool.false_ne_true
  | @reference r schema c _ ht =>
      have hnone : (referenceControl ctx r c (ctx.dataKey r.fullPointer)).isArray = false :=
        isArray_reference ht _
      exact ⟨fun _ => .leaf hnone, fun _ _ => ⟨rfl, hnone⟩⟩
  | property _ ih => exact fun hout => ih.1 hout
  | required _ ih =>
      intro hout
      exact (ih hout).modify (keepsArrays_setOption _ _) fun _ b hb => hb.setOption (by decide) _
  | fixed _ ih =>
      intro hout _
      refine ih.1 ?_
      rw [tupleRequest_inTemplate]
      exact hout
  -- A copy that looks fixed is one of a node without items, which is no array.
  | @copy r r' array name item relative n last _ hr' _ _ ih =>
      intro _ hfixed
      rw [isFixed_place] at hfixed
      obtain ⟨hitems, hnone⟩ := ih.2 hr'.removable hfixed
      obtain ⟨c, hplaced, hc⟩ := place_leaf hitems relative ⟨item, (itemSite ctx r).layout⟩ last
      rw [hplaced]
      exact .leaf (hc.trans hnone)
  | given last _ hgiven _ => exact hgiven.elim
  | add label bounds id =>
      intro _ hfixed
      exact absurd ((isFixed_add _ _ _ _ _ _).symm.trans hfixed) Bool.false_ne_true
  | limited bounds _ href ih =>
      intro hout hfixed
      rw [Node.control_modify, isFixed_withLimits] at hfixed
      refine (ih hout hfixed).modify (keepsArrays_withLimits bounds) fun hplain => ?_
      exact absurd (hplain.symm.trans href) Bool.false_ne_true

end Generate

/-! ## Whole forms -/

namespace Generate

variable {ctx : Setup} {S : Request → Prop} {r : Request} {schema : Json} {c : Control}

/-- A control of an array is made for the schema of one. -/
theorem Answers.typeName (h : Answers ctx S r schema c) (ht : c.dataType = some "array") :
    Schema.typeName? schema = some "array" := by
  obtain ⟨type, id, -, rfl⟩ := h.control
  rw [controlFor_dataType, dataType?] at ht
  rcases Option.or_eq_some_iff.mp ht with htype | ⟨-, href⟩
  · exact htype
  · split at href
    · exact absurd (Option.some.inj href) (by decide)
    · cases href

end Generate

namespace Form

open Generate

variable {options : FormOptions} {widgets : Registry} {schema data : Option Json} {form : Form}

theorem isArray_topControl (ctx : Setup) (c : Control) :
    (Compose.topControl ctx c).isArray = c.isArray := by
  unfold Compose.topControl
  split
  · next htype =>
      have hempty : "".startsWith "checkboxes" = false := by decide
      have hsection : "section".startsWith "checkboxes" = false := by decide
      simp only [Control.isArray, Compose.setType, htype, hempty, hsection]
  · rfl

theorem isReference_topControl (ctx : Setup) (c : Control) :
    (Compose.topControl ctx c).isReference = c.isReference := by
  unfold Compose.topControl
  split
  · next htype =>
      have hempty : ("" == "$ref") = false := by decide
      have hsection : ("section" == "$ref") = false := by decide
      simp only [Control.isReference, Compose.setType, htype, hempty, hsection]
  · rfl

theorem topControl_keepsArrays (ctx : Setup) : KeepsArrays (Compose.topControl ctx) :=
  ⟨Compose.topControl_dataPointer ctx, (Compose.topControl_keepsPlace ctx).dataType,
    isArray_topControl ctx, isReference_topControl ctx⟩

theorem topControl_options (ctx : Setup) (c : Control) :
    (Compose.topControl ctx c).options = c.options := by
  unfold Compose.topControl
  split <;> rfl

theorem withTitleMap_keepsArrays (flat : Bool) : KeepsArrays (Compose.withTitleMap flat) :=
  ⟨Compose.withTitleMap_same (·.dataPointer) (fun _ _ => rfl) flat,
    Compose.withTitleMap_same (·.dataType) (fun _ _ => rfl) flat,
    Compose.withTitleMap_same Control.isArray (fun _ _ => rfl) flat,
    Compose.withTitleMap_same Control.isReference (fun _ _ => rfl) flat⟩

/-- Every array in place is generated for a request. -/
theorem arrays_laid (h : compile options widgets schema none data = .ok form) {c : Control}
    (hc : c ∈ Node.inPlaceAll false form.layout) (ht : c.isArray = true) :
    ∃ r, ArrayOf form.setup Whole form.progress r c := by
  obtain ⟨built, s, more, -, hbuilt, hmore, hlayout, hdata, -⟩ := whole_derives h
  have hlaid : ∀ n ∈ built, Laid form.setup Whole s n := by
    intro n hn
    rcases hbuilt with hbuilt | hbuilt
    · exact (hbuilt n hn).lays.1 rfl
    · exact (hbuilt n hn).lays rfl
  have htop : ∀ n ∈ built.map (·.modify (Compose.topControl form.setup)) ++ more,
      Laid form.setup Whole s n := by
    intro n hn
    cases List.mem_append.mp hn with
    | inl hn =>
        obtain ⟨m, hm, rfl⟩ := List.mem_map.mp hn
        refine (hlaid m hm).modify (topControl_keepsArrays form.setup) fun _ b hb => ?_
        have hoptions := topControl_options form.setup m.control
        exact ⟨hoptions ▸ hb.maxItems, hoptions ▸ hb.minItems, hoptions ▸ hb.tupleItems,
          hoptions ▸ hb.listItems⟩
    | inr hn =>
        rcases hmore with rfl | ⟨id, rfl⟩
        · exact absurd hn List.not_mem_nil
        · obtain rfl := List.mem_singleton.mp hn
          exact .leaf rfl
  have hsize := withTitleMap_keepsArrays form.setup.options.flatList
  rw [hlayout, Node.inPlaceAll_mapAll hsize.dataType
    (Compose.withTitleMap_same Control.isFixed (fun _ _ => rfl) form.setup.options.flatList)] at hc
  obtain ⟨first, hfirst, rfl⟩ := List.mem_map.mp hc
  obtain ⟨n, hn, -, hfirst⟩ := Node.mem_inPlaceAll.mp hfirst
  obtain ⟨r, hr⟩ := htop n hn first hfirst ((hsize.isArray first).symm.trans ht)
  obtain ⟨titleMap, htitles⟩ := Compose.withTitleMap_eq form.setup.options.flatList first
  have hrecorded : ArrayOf form.setup Whole form.progress r first :=
    ⟨hr.comes, hr.outside, hr.dataPointer, hdata ▸ hr.recorded, hr.bounds⟩
  refine ⟨r, hrecorded.congr hsize fun _ b hb => ?_⟩
  rw [htitles]
  exact ⟨hb.maxItems, hb.minItems, hb.tupleItems, hb.listItems⟩

/-- The entry of the control has the bounds that the control has. -/
def Carries (form : Form) (c : Control) : Prop :=
  ∃ a b, c.dataPointer = some a ∧
    form.progress.dataMap.bounds? (form.setup.dataKey a) = some b ∧ c.HasBounds b

/-- The key of the array that the request is for. -/
def arrayKey (form : Form) (r : Request) : String :=
  form.setup.dataKey (form.setup.generic r.dataPointer)

/-- The bounds of the array went under another key than its own; or the control was told
those of the array that it is in; or what is recorded under its key was recorded for an
array elsewhere in the schema. -/
def Missized (form : Form) (r : Request) (c : Control) : Prop :=
  boundsKey form.setup r ≠ form.arrayKey r ∨ c.isReference = true ∨
    ∃ other b, Sizes form.setup Whole other b ∧ boundsKey form.setup other = form.arrayKey r ∧
      form.progress.dataMap.bounds? (form.arrayKey r) = some b ∧
      other.schemaPointer ≠ r.schemaPointer

/-- There is an array at the key. -/
def HoldsArray (form : Form) (key : String) : Prop :=
  ∃ s, Schema.atData? form.schema key = some s ∧ Schema.typeName? s = some "array"

/-- The request is one for a field that is at the key, and is not misread. -/
def IsAt (form : Form) (r : Request) (key : String) : Prop :=
  ∃ path place s, Schema.Field form.schema path place s ∧ ¬Schema.Misread form.schema path ∧
    r.schemaPointer = Pointer.ofSegments path ∧ key = Pointer.ofSegments place

/-- The bounds under the key were recorded for an array that is not at the key. -/
def Foreign (form : Form) (key : String) : Prop :=
  ∃ r b, Sizes form.setup Whole r b ∧ boundsKey form.setup r = key ∧
    form.progress.dataMap.bounds? key = some b ∧ ¬IsAt form r key

theorem IsAt.holdsArray {r : Request} {key : String} {b : ArrayBounds}
    (h : IsAt form r key) (hr : Sizes form.setup Whole r b) : HoldsArray form key := by
  obtain ⟨path, place, s, hfield, hread, hpath, rfl⟩ := h
  obtain ⟨schema, c, ha, ht, -⟩ := hr
  have hfound := ha.found
  rw [hpath, schemaAt?_of_field hfield] at hfound
  obtain rfl := Option.some.inj hfound
  refine ⟨s, ?_, ha.typeName ht⟩
  rw [Schema.atData?, Schema.locate?, Pointer.segments?_ofSegments, Option.bind_some,
    hfield.located hread]
  rfl

/-- Bounds are recorded for requests that come up. -/
theorem bounds_measured (h : compile options widgets schema none data = .ok form) {key : String}
    {b : ArrayBounds} (hb : form.progress.dataMap.bounds? key = some b) :
    Measures form.setup Whole key b := by
  obtain ⟨e, he, hbounds⟩ := Option.bind_eq_some_iff.mp hb
  exact (whole_recorded h key e he).bounds b hbounds

/-- **The sizes of arrays.**  Every array that is laid out in place is one that a request
asks for, and its entry has the bounds that it has itself, unless it is missized; and where
bounds are recorded there is an array, unless they are foreign. -/
theorem sizes_recorded (h : compile options widgets schema none data = .ok form) :
    (∀ c ∈ Node.inPlaceAll false form.layout, c.isArray = true →
        (∃ r, ArrayOf form.setup Whole form.progress r c) ∧
          ∀ r, ArrayOf form.setup Whole form.progress r c → ¬Missized form r c → Carries form c) ∧
      ∀ key b, form.progress.dataMap.bounds? key = some b → ¬Foreign form key →
        HoldsArray form key := by
  constructor
  · refine fun c hc ht => ⟨arrays_laid h hc ht, fun r hr hsized => ?_⟩
    obtain ⟨own, hown, hheld⟩ := hr.bounds
    have hkey : boundsKey form.setup r = form.arrayKey r :=
      by_contra fun hkey => hsized (.inl hkey)
    have hplain : c.isReference = false :=
      Bool.eq_false_iff.mpr fun href => hsized (.inr (.inl href))
    obtain ⟨b, hb⟩ := Option.isSome_iff_exists.mp hr.recorded
    rw [hkey] at hb
    obtain ⟨other, hother, hsame⟩ := bounds_measured h hb
    have hschema : other.schemaPointer = r.schemaPointer :=
      by_contra fun hschema => hsized (.inr (.inr ⟨other, b, hother, hsame.symm, hb, hschema⟩))
    obtain rfl := hown.unique hother hschema
    exact ⟨_, b, hr.dataPointer, hb, hheld hplain⟩
  · intro key b hb hhome
    obtain ⟨r, hr, hkey⟩ := bounds_measured h hb
    have hat : IsAt form r key := by_contra fun hat => hhome ⟨r, b, hr, hkey.symm, hb, hat⟩
    exact hat.holdsArray hr

/-! ## Arrays without references -/

/-- Without references an array under a plain name has its own bounds. -/
theorem not_missized (hplain : form.setup.Unreferenced)
    (hobject : (form.setup.resolved.schemaAt? "").bind dataType? = some "object")
    {r : Request} {c : Control} (hr : ArrayOf form.setup Whole form.progress r c) {name : String}
    (hname : Pointer.IsPlain name) (ha : c.dataPointer = some (Pointer.child "" name))
    (href : c.isReference = false) : ¬Missized form r c := by
  have hplace : form.setup.generic r.dataPointer = Pointer.child "" name :=
    Option.some.inj (hr.dataPointer.symm.trans ha)
  have hkey : form.arrayKey r = Pointer.child "" name := by
    rw [arrayKey, hplain.unfolded.dataKey, hplace]
    exact hname.toGeneric _
  rintro (hother | hother | ⟨other, b, ⟨schema, d, hcomes, -, -⟩, hsame, -, hschema⟩)
  · exact hother ((hplain.boundsKey_eq hr.comes).trans (hplace.trans hkey.symm))
  · exact Bool.false_ne_true (href.symm.trans hother)
  · rw [hplain.boundsKey_eq hcomes.comes, hkey] at hsame
    rw [hplain.of_plain hobject hcomes.comes hname hsame,
      hplain.of_plain hobject hr.comes hname hplace] at hschema
    exact hschema rfl

/-- Without references the bounds under a plain name are those of the array there. -/
theorem not_foreign (hplain : form.setup.Unreferenced)
    (hobject : (form.setup.resolved.schemaAt? "").bind dataType? = some "object") {name : String}
    (hname : Pointer.IsPlain name) : ¬Foreign form (Pointer.child "" name) := by
  rintro ⟨r, b, ⟨schema, c, hc, -, -⟩, hkey, -, haway⟩
  rw [hplain.boundsKey_eq hc.comes] at hkey
  have hr := hplain.of_plain hobject hc.comes hname hkey
  have hout : r.inTemplate = false := by
    rw [hr, propertyRequest_inTemplate]
  obtain ⟨path, place, s, hfield, hpath, hplace⟩ := hc.comes.field whole_forField hout
  have hschema : r.schemaPointer = Pointer.ofSegments ["properties", name] := by
    rw [hr]
    exact Pointer.child_properties name
  have hdata : r.dataPointer = Pointer.child "" name := by
    rw [hr]
    rfl
  obtain rfl := Pointer.ofSegments_injective (hpath.symm.trans hschema)
  exact haway ⟨_, place, s, hfield, Schema.not_misread_property hname.isPosition, hpath,
    hdata.symm.trans hplace⟩

/-- The arrays that are in place in the form of a schema, with the bounds recorded under
their pointers. -/
def placedArrays (schema : Json) : List (String × Option ArrayBounds) :=
  match compile {} [] (some schema) none none with
  | .ok form => ((Node.inPlaceAll false form.layout).filter Control.isArray).filterMap fun c =>
      c.dataPointer.map fun a => (a, form.progress.dataMap.bounds? (form.setup.dataKey a))
  | .error _ => []

theorem mem_placedArrays {schema : Json} {a : String} {b : Option ArrayBounds}
    (h : (a, b) ∈ placedArrays schema) :
    ∃ form c, compile {} [] (some schema) none none = .ok form ∧
      c ∈ Node.inPlaceAll false form.layout ∧ c.isArray = true ∧ c.dataPointer = some a ∧
      form.progress.dataMap.bounds? (form.setup.dataKey a) = b := by
  unfold placedArrays at h
  split at h
  · next form hform =>
      obtain ⟨c, hmem, he⟩ := List.mem_filterMap.mp h
      obtain ⟨hc, ht⟩ := List.mem_filter.mp hmem
      obtain ⟨a', ha, he⟩ := Option.map_eq_some_iff.mp he
      simp only [Prod.mk.injEq] at he
      obtain ⟨rfl, hb⟩ := he
      exact ⟨form, c, hform, hc, ht, ha, hb⟩
  · exact absurd h List.not_mem_nil

theorem sizes_recorded_list :
    ∃ form c r, compile {} [] (some listSchema) none none = .ok form ∧
      c ∈ Node.inPlaceAll false form.layout ∧ c.isArray = true ∧ c.dataPointer = some "/list" ∧
      form.progress.dataMap.bounds? "/list" = some ⟨1000, 0, 0, 1⟩ ∧
      ArrayOf form.setup Whole form.progress r c ∧ ¬Missized form r c ∧ Carries form c ∧
      ¬Foreign form "/list" ∧ HoldsArray form "/list" := by
  have hcompiled : (compile {} [] (some listSchema) none none).toOption.any (fun form =>
      form.setup.lacksReferences &&
        (form.setup.resolved.schemaAt? "").bind dataType? == some "object" &&
        decide (form.progress.dataMap.bounds? "/list" = some ⟨1000, 0, 0, 1⟩) &&
        (Node.inPlaceAll false form.layout).any fun c =>
          c.isArray && c.dataPointer == some "/list" && !c.isReference) = true := by
    decide +kernel
  obtain ⟨form, hform, hcompiled⟩ := exists_ok_of_any hcompiled
  simp only [Bool.and_eq_true, List.any_eq_true, beq_iff_eq, decide_eq_true_eq,
    Bool.not_eq_true'] at hcompiled
  obtain ⟨⟨⟨hlacks, hobject⟩, hb⟩, c, hc, ⟨ht, ha⟩, href⟩ := hcompiled
  have hplain := Setup.unreferenced_of hlacks
  have hname : Pointer.IsPlain "list" := by decide
  obtain ⟨hcontrols, hentries⟩ := sizes_recorded hform
  obtain ⟨⟨r, hr⟩, hcarries⟩ := hcontrols c hc ht
  have hsized : ¬Missized form r c := not_missized hplain hobject hr hname ha href
  have hhome : ¬Foreign form "/list" := not_foreign hplain hobject hname
  exact ⟨form, c, r, hform, hc, ht, ha, hb, hr, hsized, hcarries r hr hsized, hhome,
    hentries _ _ hb hhome⟩

/-- Nothing is recorded under the children of a tree. -/
theorem not_sizes_recorded :
    ∃ form c, compile {} [] (some branchesSchema) none none = .ok form ∧
      c ∈ Node.inPlaceAll false form.layout ∧ c.isArray = true ∧
      c.dataPointer = some "/tree/children" ∧ ¬Carries form c := by
  have hmem : ("/tree/children", none) ∈ placedArrays branchesSchema := by decide +kernel
  obtain ⟨form, c, hform, hc, ht, ha, hb⟩ := mem_placedArrays hmem
  refine ⟨form, c, hform, hc, ht, ha, ?_⟩
  rintro ⟨a, b, ha', hb', -⟩
  obtain rfl := Option.some.inj (ha.symm.trans ha')
  exact Option.some_ne_none b (hb'.symm.trans hb)

end Form

end SchemaForm
