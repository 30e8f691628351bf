/-
Controls with the same options.

Options are looked up by their keys, so the order in which they were written does not matter.
Controls that differ in their ids and in that order only are `Control.Alike`.  What is done to a
control on its way into a layout keeps that, and most of it may be done in another order: a title
is written after the requirement or before, and bounds that are written twice are those that were
written last.
-/
import SchemaForm.Proofs.Layout.Bound
import SchemaForm.Proofs.Layout.Twins

namespace SchemaForm

namespace Table

variable {β : Type} {t t' t'' : Table β} {key key' : String} {value value' : β}

/-- The same is found in both tables. -/
def Agree (t t' : Table β) : Prop := ∀ key, get? t key = get? t' key

theorem Agree.refl (t : Table β) : Agree t t := fun _ => rfl

theorem Agree.symm (h : Agree t t') : Agree t' t := fun key => (h key).symm

theorem Agree.trans (h : Agree t t') (h' : Agree t' t'') : Agree t t'' :=
  fun key => (h key).trans (h' key)

theorem Agree.insert (h : Agree t t') (key : String) (value : β) :
    Agree (insert t key value) (insert t' key value) := by
  intro other
  rw [get?_insert, get?_insert, h other]

theorem agree_insert_comm (t : Table β) (hne : key ≠ key') (value value' : β) :
    Agree (insert (insert t key value) key' value') (insert (insert t key' value') key value) := by
  intro other
  simp only [get?_insert]
  by_cases hkey : key = other
  · rw [if_pos hkey, if_neg fun he => hne (hkey.trans he.symm), if_pos hkey]
  · rw [if_neg hkey, if_neg hkey]

theorem agree_insert_insert (t : Table β) (key : String) (value value' : β) :
    Agree (insert (insert t key value) key value') (insert t key value') := by
  intro other
  simp only [get?_insert]
  split <;> rfl

/-- Writing what is there already changes nothing. -/
theorem agree_insert_self (h : get? t key = some value) : Agree (insert t key value) t := by
  intro other
  rw [get?_insert]
  split
  · next he => rw [← he, h]
  · rfl

end Table

namespace Control

variable {c d e : Control} {key key' : String} {value : Json}

/-- The second control is the first one with another id, and with options that are found the
same. -/
def Alike (c d : Control) : Prop :=
  ∃ id options, d = { c with id, options } ∧ Table.Agree c.options options

/-- What sees neither ids nor options. -/
def Blind {β : Type} (f : Control → β) : Prop :=
  ∀ (c : Control) id options, f { c with id, options } = f c

namespace Alike

theorem refl (c : Control) : c.Alike c := ⟨c.id, c.options, rfl, .refl _⟩

theorem symm (h : c.Alike d) : d.Alike c := by
  obtain ⟨id, options, rfl, hoptions⟩ := h
  exact ⟨c.id, c.options, rfl, hoptions.symm⟩

theorem trans (h : c.Alike d) (h' : d.Alike e) : c.Alike e := by
  obtain ⟨id, options, rfl, hoptions⟩ := h
  obtain ⟨id', options', rfl, hoptions'⟩ := h'
  exact ⟨id', options', rfl, hoptions.trans hoptions'⟩

/-- Controls with other options. -/
theorem of_agree {options options' : Members} (c : Control) (h : Table.Agree options options') :
    Alike { c with options } { c with options := options' } := ⟨c.id, options', rfl, h⟩

theorem options (h : c.Alike d) : Table.Agree c.options d.options := by
  obtain ⟨id, options, rfl, hoptions⟩ := h
  exact hoptions

theorem same {β : Type} {f : Control → β} (hf : Blind f) (h : c.Alike d) : f d = f c := by
  obtain ⟨id, options, rfl, -⟩ := h
  exact hf c id options

theorem flag (h : c.Alike d) (key : String) (default : Bool) :
    c.flag key default = d.flag key default := by
  rw [Control.flag, Control.flag, h.options key]

theorem title? (h : c.Alike d) : c.title? = d.title? := by
  rw [Control.title?, Control.title?, h.options "title"]

theorem name (h : c.Alike d) : c.name = d.name :=
  (h.same (f := Control.name) fun _ _ _ => rfl).symm

theorem setOption (h : c.Alike d) (key : String) (value : Json) :
    (c.setOption key value).Alike (d.setOption key value) := by
  obtain ⟨id, options, rfl, hoptions⟩ := h
  exact ⟨id, Table.insert options key value, rfl, hoptions.insert key value⟩

end Alike

theorem setOption_comm (c : Control) (hne : key ≠ key') (value value' : Json) :
    ((c.setOption key value).setOption key' value').Alike
      ((c.setOption key' value').setOption key value) :=
  .of_agree c (Table.agree_insert_comm _ hne _ _)

theorem setOption_setOption (c : Control) (key : String) (value value' : Json) :
    ((c.setOption key value).setOption key value').Alike (c.setOption key value') :=
  .of_agree c (Table.agree_insert_insert _ _ _ _)

end Control

namespace Node

/-- The nodes are the same but for their ids and the order of the options at the top. -/
structure Alike (n m : Node) : Prop where
  control : n.control.Alike m.control
  items : Same n.items m.items

theorem Alike.modify {n m : Node} {f g : Control → Control} (h : n.Alike m)
    (hf : (f n.control).Alike (g m.control)) : (n.modify f).Alike (m.modify g) := by
  cases n
  cases m
  exact ⟨hf, h.items⟩

mutual

theorem bare_map {f : Control → Control} (hf : ∀ c : Control, (f c).bare = f c.bare) :
    ∀ n : Node, (n.map f).bare = n.bare.map f
  | mk c items => by
      rw [map, bare_mk, bare_mk, map, hf, mapAll_eq_map f (items.map bare), mapAll_bare hf items]

theorem mapAll_bare {f : Control → Control} (hf : ∀ c : Control, (f c).bare = f c.bare) :
    ∀ ns : List Node, (mapAll f ns).map bare = (ns.map bare).map (map f)
  | [] => rfl
  | n :: rest => by
      rw [mapAll, List.map_cons, List.map_cons, List.map_cons, bare_map hf n, mapAll_bare hf rest]

end

theorem Alike.map {n m : Node} {f : Control → Control} (h : n.Alike m)
    (hf : ∀ c : Control, (f c).bare = f c.bare) (hcontrol : (f n.control).Alike (f m.control)) :
    (n.map f).Alike (m.map f) := by
  cases n with
  | mk c ns =>
      cases m with
      | mk d ms =>
          refine ⟨hcontrol, ?_⟩
          have hitems : ns.map bare = ms.map bare := h.items
          show (mapAll f ns).map bare = (mapAll f ms).map bare
          rw [mapAll_bare hf, mapAll_bare hf, hitems]

end Node

namespace Generate

variable {ctx : Setup} {r : Request} {c d : Control} {key pointer : String} {value : Json}
  {bounds : ArrayBounds}

/-! ## Titles -/

theorem withTitle_alike (h : c.Alike d) : (withTitle c).Alike (withTitle d) := by
  unfold withTitle
  rw [h.title?, h.name]
  split
  · exact h.setOption _ _
  · exact h

/-- Other options may be written before the title or after it. -/
theorem withTitle_setOption (c : Control) (hkey : key ≠ "title") (value : Json) :
    (withTitle (c.setOption key value)).Alike ((withTitle c).setOption key value) := by
  have htitle : (c.setOption key value).title? = c.title? := by
    rw [Control.title?, Control.title?, Control.setOption, Table.get?_insert, if_neg hkey]
  have hname : (c.setOption key value).name = c.name := rfl
  unfold withTitle
  rw [htitle, hname]
  split
  · exact c.setOption_comm hkey _ _
  · exact .refl _

theorem withTitle_same {β : Type} {f : Control → β} (hf : Control.Blind f) (c : Control) :
    f (withTitle c) = f c := by
  unfold withTitle
  split
  · exact hf c c.id _
  · rfl

theorem flag_withTitle (c : Control) (hkey : key ≠ "title") (default : Bool) :
    (withTitle c).flag key default = c.flag key default := by
  rw [Control.flag, Control.flag, get?_withTitle c hkey]

/-- What has a title keeps it. -/
theorem withTitle_of_title {text : String} (h : Table.get? c.options "title" = some (.str text)) :
    withTitle c = c := by
  have htitle : c.title? = some text := by
    rw [Control.title?, h]
    rfl
  rw [withTitle, htitle]

/-! ## Bounds -/

/-- The control with bounds among its options. -/
def withBounds (bounds : ArrayBounds) (c : Control) : Control :=
  { c with options := bounds.writeOptions c.options }

/-- Bounds are four options. -/
theorem withBounds_eq (bounds : ArrayBounds) (c : Control) :
    withBounds bounds c = (((c.setOption "maxItems" (Json.nat bounds.maxItems)).setOption "minItems"
      (Json.nat bounds.minItems)).setOption "tupleItems" (Json.nat bounds.tupleItems)).setOption
        "listItems" (Json.nat bounds.listItems) := rfl

theorem withBounds_alike (h : c.Alike d) (bounds : ArrayBounds) :
    (withBounds bounds c).Alike (withBounds bounds d) := by
  rw [withBounds_eq, withBounds_eq]
  exact (((h.setOption _ _).setOption _ _).setOption _ _).setOption _ _

theorem get?_writeOptions (bounds : ArrayBounds) (options : Members)
    (hkey : key ∉ ["maxItems", "minItems", "tupleItems", "listItems"]) :
    Table.get? (bounds.writeOptions options) key = Table.get? options key := by
  simp only [List.mem_cons, List.not_mem_nil, or_false, not_or] at hkey
  obtain ⟨hmax, hmin, htuple, hlist⟩ := hkey
  simp only [ArrayBounds.writeOptions, Table.insertAll, List.foldl_cons, List.foldl_nil,
    Table.get?_insert, if_neg (Ne.symm hmax), if_neg (Ne.symm hmin), if_neg (Ne.symm htuple),
    if_neg (Ne.symm hlist)]

/-- Other options may be written before the bounds or after them. -/
theorem withBounds_setOption (bounds : ArrayBounds) (c : Control)
    (hkey : key ∉ ["maxItems", "minItems", "tupleItems", "listItems"]) (value : Json) :
    (withBounds bounds (c.setOption key value)).Alike
      ((withBounds bounds c).setOption key value) := by
  simp only [List.mem_cons, List.not_mem_nil, or_false, not_or] at hkey
  obtain ⟨hmax, hmin, htuple, hlist⟩ := hkey
  rw [withBounds_eq, withBounds_eq]
  have h₁ := c.setOption_comm hmax value (Json.nat bounds.maxItems)
  have h₂ := (h₁.setOption "minItems" (Json.nat bounds.minItems)).trans
    (Control.setOption_comm _ hmin _ _)
  have h₃ := (h₂.setOption "tupleItems" (Json.nat bounds.tupleItems)).trans
    (Control.setOption_comm _ htuple _ _)
  exact (h₃.setOption "listItems" (Json.nat bounds.listItems)).trans
    (Control.setOption_comm _ hlist _ _)

/-- A title may be written before the bounds or after them. -/
theorem withTitle_withBounds (bounds : ArrayBounds) (c : Control) :
    (withTitle (withBounds bounds c)).Alike (withBounds bounds (withTitle c)) := by
  have htitle : (withBounds bounds c).title? = c.title? := by
    rw [Control.title?, Control.title?, withBounds, get?_writeOptions _ _ (by decide)]
  have hname : (withBounds bounds c).name = c.name := rfl
  unfold withTitle
  rw [htitle, hname]
  split
  · exact (withBounds_setOption bounds c (by decide) _).symm
  · exact .refl _

/-- Bounds that are written again are the ones that count. -/
theorem withBounds_withBounds (bounds first : ArrayBounds) (c : Control) :
    (withBounds bounds (withBounds first c)).Alike (withBounds bounds c) := by
  refine .of_agree c fun key => ?_
  simp only [withBounds, ArrayBounds.writeOptions, Table.insertAll, List.foldl_cons,
    List.foldl_nil, Table.get?_insert]
  split
  · rfl
  · split
    · rfl
    · split
      · rfl
      · split <;> rfl

/-! ## References -/

/-- The label of a reference. -/
def referenceLabel (ctx : Setup) (r : Request) (c : Control) : String :=
  Text.addLabel ((Table.get? c.options "add").bind Json.str?) c.name
    ((((ctx.resolved.schemaAt? (holderPointer r.schemaPointer)).getD .null).get? "title").bind
      Json.str?) (Pointer.beforeLast? r.dataPointer)

/-- The limit that is above a reference. -/
def withLimit (ctx : Setup) (r : Request) (c : Control) : Control :=
  match (((ctx.resolved.schemaAt? (holderPointer r.schemaPointer)).getD .null).get?
      "maxItems").filter Json.isNum with
  | some limit => c.setOption "maxItems" limit
  | none => c

/-- The control stands for the template of the name. -/
def standing (ctx : Setup) (name : String) (c : Control) : Control :=
  { c with recursive := true, reference := some name, widget := ctx.widget? "$ref" }

theorem referenceControl_eq (ctx : Setup) (r : Request) (c : Control) (name : String) :
    referenceControl ctx r c name = standing ctx name (withLimit ctx r
      ((c.setOption "removable" (.bool false)).setOption "title"
        (.str (referenceLabel ctx r c)))) := by
  unfold referenceControl withLimit
  dsimp only
  generalize Option.filter Json.isNum _ = limit
  cases limit <;> rfl

theorem withLimit_alike (ctx : Setup) (r : Request) (h : c.Alike d) :
    (withLimit ctx r c).Alike (withLimit ctx r d) := by
  unfold withLimit
  split
  · exact h.setOption _ _
  · exact h

theorem standing_alike (h : c.Alike d) (name : String) :
    (standing ctx name c).Alike (standing ctx name d) := by
  obtain ⟨id, options, rfl, hoptions⟩ := h
  exact ⟨id, options, rfl, hoptions⟩

/-- References with the same label that are alike up to their titles. -/
theorem referenceControl_alike_of (hlabel : referenceLabel ctx r c = referenceLabel ctx r d)
    (h : ∀ title, (c.setOption "title" title).Alike (d.setOption "title" title)) (name : String) :
    (referenceControl ctx r c name).Alike (referenceControl ctx r d name) := by
  rw [referenceControl_eq, referenceControl_eq, hlabel]
  refine standing_alike (withLimit_alike ctx r ?_) name
  have hne : "removable" ≠ "title" := by decide
  refine (c.setOption_comm hne _ _).trans (.trans ?_ (d.setOption_comm hne _ _).symm)
  exact (h _).setOption _ _

theorem referenceControl_alike (h : c.Alike d) (name : String) :
    (referenceControl ctx r c name).Alike (referenceControl ctx r d name) := by
  refine referenceControl_alike_of ?_ (fun title => h.setOption _ _) name
  rw [referenceLabel, referenceLabel, h.options "add", h.name]

/-- The title of a reference is its label, whatever title it had. -/
theorem referenceControl_withTitle (ctx : Setup) (r : Request) (c : Control) (name : String) :
    (referenceControl ctx r (withTitle c) name).Alike (referenceControl ctx r c name) := by
  unfold withTitle
  split
  · refine referenceControl_alike_of ?_ (fun title => c.setOption_setOption _ _ _) name
    have hne : "title" ≠ "add" := by decide
    rw [referenceLabel, referenceLabel, Control.setOption, Table.get?_insert, if_neg hne]
  · exact .refl _

theorem withTitle_referenceControl (ctx : Setup) (r : Request) (c : Control) (name : String) :
    withTitle (referenceControl ctx r c name) = referenceControl ctx r c name := by
  have hne : "maxItems" ≠ "title" := by decide
  have htitle : Table.get? (referenceControl ctx r c name).options "title" =
      some (.str (referenceLabel ctx r c)) := by
    rw [referenceControl_eq]
    unfold standing withLimit
    split
    · simp only [Control.setOption, Table.get?_insert, if_neg hne, if_pos]
    · simp only [Control.setOption, Table.get?_insert, if_pos]
  exact withTitle_of_title htitle

/-- Options that a reference does not look at may be written before it is made one or after. -/
theorem referenceControl_setOption (ctx : Setup) (r : Request) (c : Control) (name : String)
    (hkey : key ∉ ["add", "removable", "title", "maxItems"]) (value : Json) :
    (referenceControl ctx r (c.setOption key value) name).Alike
      ((referenceControl ctx r c name).setOption key value) := by
  simp only [List.mem_cons, List.not_mem_nil, or_false, not_or] at hkey
  obtain ⟨hadd, hremovable, htitle, hmax⟩ := hkey
  have hlabel : referenceLabel ctx r (c.setOption key value) = referenceLabel ctx r c := by
    rw [referenceLabel, referenceLabel, Control.setOption, Table.get?_insert, if_neg hadd]
  have hfirst := ((c.setOption_comm hremovable value (.bool false)).setOption "title"
    (.str (referenceLabel ctx r c))).trans (Control.setOption_comm _ htitle _ _)
  have hlimit : (withLimit ctx r (((c.setOption key value).setOption "removable"
      (.bool false)).setOption "title" (.str (referenceLabel ctx r c)))).Alike
        ((withLimit ctx r ((c.setOption "removable" (.bool false)).setOption "title"
          (.str (referenceLabel ctx r c)))).setOption key value) := by
    refine (withLimit_alike ctx r hfirst).trans ?_
    unfold withLimit
    split
    · exact Control.setOption_comm _ hmax _ _
    · exact .refl _
  rw [referenceControl_eq, referenceControl_eq, hlabel]
  exact standing_alike hlimit name

end Generate

namespace Compose

open Generate

variable {ctx : Setup} {c d x y : Control} {key pointer : String} {options : Members}

/-! ## Requirements -/

theorem requiredControl_same {β : Type} {f : Control → β} (hf : Control.Blind f) (c : Control) :
    f (requiredControl ctx pointer c) = f c := by
  unfold requiredControl
  split
  · exact hf c c.id _
  · rfl

theorem get?_requiredControl (hkey : key ≠ "required") :
    Table.get? (requiredControl ctx pointer c).options key = Table.get? c.options key := by
  unfold requiredControl
  split
  · rw [Control.setOption, Table.get?_insert, if_neg hkey.symm]
  · rfl

theorem flag_requiredControl (c : Control) (hkey : key ≠ "required") (default : Bool) :
    (requiredControl ctx pointer c).flag key default = c.flag key default := by
  rw [Control.flag, Control.flag, get?_requiredControl hkey]

theorem requiredControl_alike (h : c.Alike d) (pointer : String) :
    (requiredControl ctx pointer c).Alike (requiredControl ctx pointer d) := by
  unfold requiredControl
  split
  · exact h.setOption _ _
  · exact h

theorem withTitle_requiredControl (c : Control) :
    (withTitle (requiredControl ctx pointer c)).Alike
      (requiredControl ctx pointer (withTitle c)) := by
  unfold requiredControl
  split
  · exact withTitle_setOption c (by decide) _
  · exact .refl _

theorem withBounds_requiredControl (bounds : ArrayBounds) (c : Control) :
    (withBounds bounds (requiredControl ctx pointer c)).Alike
      (requiredControl ctx pointer (withBounds bounds c)) := by
  unfold requiredControl
  split
  · exact withBounds_setOption bounds c (by decide) _
  · exact .refl _

theorem referenceControl_requiredControl (r : Request) (c : Control) (name : String) :
    (referenceControl ctx r (requiredControl ctx pointer c) name).Alike
      (requiredControl ctx pointer (referenceControl ctx r c name)) := by
  unfold requiredControl
  split
  · exact referenceControl_setOption ctx r c name (by decide) _
  · exact .refl _

/-- What is required and titled in one order and in the other. -/
theorem required_alike_titled (hd : d.Alike (requiredControl ctx pointer y))
    (hx : x.Alike (withTitle y)) :
    (requiredControl ctx pointer x).Alike (withTitle d) :=
  (requiredControl_alike hx pointer).trans
    ((withTitle_requiredControl y).symm.trans (withTitle_alike hd.symm))

/-- The bounds of a list are the last ones that are written. -/
theorem bounds_alike {bounds first : ArrayBounds}
    (hd : d.Alike (requiredControl ctx pointer (withBounds first y))) :
    (withBounds bounds d).Alike (requiredControl ctx pointer (withBounds bounds y)) :=
  (withBounds_alike hd bounds).trans
    ((withBounds_requiredControl bounds _).trans
      (requiredControl_alike (withBounds_withBounds bounds first y) pointer))

/-! ## Targets of copies -/

/-- Targets that are generic pointers already stay what they are, whatever else there is. -/
theorem withCopyTargets_agree {options' : Members}
    (hwritten : Table.get? (withCopyTargets options) "copyValueTo" =
      Table.get? options "copyValueTo")
    (hsame : Table.get? options' "copyValueTo" = Table.get? options "copyValueTo") :
    Table.Agree (withCopyTargets options') options' := by
  unfold withCopyTargets at hwritten ⊢
  dsimp only at hwritten ⊢
  rw [hsame]
  split
  · next path hpath =>
      rw [hpath] at hwritten
      dsimp only at hwritten
      rw [Table.get?_insert, if_pos rfl] at hwritten
      exact Table.agree_insert_self (hsame.trans (hpath.trans hwritten.symm))
  · next paths hpaths =>
      rw [hpaths] at hwritten
      dsimp only at hwritten
      rw [Table.get?_insert, if_pos rfl] at hwritten
      exact Table.agree_insert_self (hsame.trans (hpaths.trans hwritten.symm))
  · exact .refl _

/-! ## Finished controls -/

theorem topControl_alike (ctx : Setup) (h : c.Alike d) :
    (topControl ctx c).Alike (topControl ctx d) := by
  obtain ⟨id, options, rfl, hoptions⟩ := h
  unfold topControl
  dsimp only
  split
  · exact ⟨id, options, rfl, hoptions⟩
  · exact ⟨id, options, rfl, hoptions⟩

theorem withTitleMap_alike (flat : Bool) (h : c.Alike d) :
    (withTitleMap flat c).Alike (withTitleMap flat d) := by
  have hflat := h.flag "flatList" flat
  have hrequired := h.flag "required" false
  obtain ⟨id, options, rfl, hoptions⟩ := h
  unfold withTitleMap
  dsimp only at hflat hrequired ⊢
  split
  · exact ⟨id, options, rfl, hoptions⟩
  · rw [hflat, hrequired, hoptions "titleMap", hoptions "enum"]
    exact ⟨id, options, rfl, hoptions⟩

theorem withTitleMap_bare (flat : Bool) (c : Control) : (withTitleMap flat c).bare =
    withTitleMap flat c.bare := by
  unfold withTitleMap Control.bare
  dsimp only
  split <;> rfl

end Compose

theorem Form.finished_alike (ctx : Setup) {n m : Node} (h : n.Alike m) :
    (finished ctx n).Alike (finished ctx m) :=
  (h.modify (Compose.topControl_alike ctx h.control)).map (Compose.withTitleMap_bare _)
    (Compose.withTitleMap_alike _
      (h.modify (Compose.topControl_alike ctx h.control)).control)

end SchemaForm
