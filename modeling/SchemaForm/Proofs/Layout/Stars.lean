/-
Descriptions in which the star stands at the top only.

The pointer `*` of an entry stands for everything in the schema.  A description is
starless if that is the pointer of entries at the top without children at most, and no
other data pointer that is given begins with a star.  Then no entry below comes to be
bound to `*`, not even an array that is bound by what is in it
(`Description.boundTo?_unstarred`), since data pointers that do not begin with a star lead
to such ones only (`unstarred_reaches`).  Whether the stars are at the top only is decided
by the description alone (`Entry.starless_iff`).
-/
import SchemaForm.Proofs.Layout.DataPointers
import SchemaForm.Proofs.Reference.Folds

namespace SchemaForm

namespace Pointer

/-- The text does not begin with a star. -/
def Unstarred (a : String) : Prop := a.toList.head? ≠ some '*'

instance (a : String) : Decidable (Unstarred a) :=
  inferInstanceAs (Decidable (a.toList.head? ≠ some '*'))

variable {a b : String}

theorem unstarred_empty : Unstarred "" := by decide

theorem not_unstarred_star : ¬Unstarred "*" := by decide

theorem Written.unstarred (h : Written a) : Unstarred a := by
  obtain ⟨segments, rfl⟩ := h
  unfold Unstarred
  cases ofSegments_slash segments with
  | inl hempty =>
      rw [hempty]
      decide
  | inr hslash =>
      rw [hslash]
      decide

theorem Unstarred.append_of_ne (h : Unstarred a) (hne : a ≠ "") (b : String) :
    Unstarred (a ++ b) := by
  unfold Unstarred
  rw [String.toList_append, List.head?_append_of_ne_nil _ (String.toList_eq_nil_iff.not.mpr hne)]
  exact h

theorem Unstarred.append (h : Unstarred a) (hb : Unstarred b) : Unstarred (a ++ b) := by
  by_cases hne : a = ""
  · rw [hne, String.empty_append]
    exact hb
  · exact h.append_of_ne hne b

theorem Unstarred.slash (h : Unstarred a) (more : String) : Unstarred (a ++ "/" ++ more) := by
  have hslash : Unstarred "/" := by decide
  rw [String.append_assoc]
  exact h.append (hslash.append_of_ne (by decide) more)

theorem Unstarred.of_prefix (h : Unstarred a) (hb : b.toList <+: a.toList) : Unstarred b := by
  obtain ⟨rest, hrest⟩ := hb
  unfold Unstarred at h ⊢
  cases hlist : b.toList with
  | nil => exact Option.some_ne_none _ ∘ Eq.symm
  | cons c cs =>
      rw [← hrest, hlist] at h
      exact h

end Pointer

open Pointer

/-! ## Data pointers that do not begin with a star -/

/-- Nothing is asked of the data pointers in relative templates, which are continued from
sites. -/
def AnyPointer (_ : String) : Prop := True

theorem unstarred_generic (ctx : Setup) {a : String} (h : Unstarred a) :
    Unstarred (ctx.generic a) := by
  rcases toGeneric_cases ctx.resolved.arrays a with hwritten | ⟨-, hsame⟩
  · exact hwritten.unstarred
  · rw [Setup.generic, hsame]
    exact h

theorem unstarred_reaches (ctx : Setup) : Generate.Reaches ctx Unstarred AnyPointer :=
  ⟨⟨unstarred_empty, fun _ ha => unstarred_generic ctx ha, fun _ _ ha => ha.slash _,
    fun _ _ ha => ha.slash _, fun _ ha => ha.slash _⟩, fun _ _ => trivial,
    fun _ b ha hne _ => ha.append_of_ne hne b⟩

theorem Control.Within.getD {c : Control} (h : c.Within Unstarred) :
    Unstarred (c.dataPointer.getD "") := by
  cases hc : c.dataPointer with
  | none => exact unstarred_empty
  | some a => exact h a hc

theorem unstarred_dataKey {ctx : Setup} (hfolds : ∀ rule ∈ ctx.resolved.dataFolds, RuleWritten rule)
    {a : String} (h : Unstarred a) : Unstarred (ctx.dataKey a) := by
  rcases shorten_cases hfolds a with hwritten | hsame
  · exact Written.unstarred hwritten
  · have hkey : ctx.dataKey a = a := hsame
    rw [hkey]
    exact h

/-! ## Entries -/

namespace Description

/-- The entry does not stand for everything in the schema, and the data pointer that it
gives does not begin with a star. -/
structure Parts.Starless (p : Parts) : Prop where
  key : p.key ≠ some "*"
  dataPointer : ∀ a, p.dataPointer = some a → Unstarred a

instance (p : Parts) : Decidable p.Starless :=
  decidable_of_iff (p.key ≠ some "*" ∧ ∀ a ∈ p.dataPointer, Unstarred a)
    ⟨fun ⟨hkey, hdata⟩ => ⟨hkey, hdata⟩, fun h => ⟨h.key, h.dataPointer⟩⟩

/-- What is cut off begins with a slash and a minus sign. -/
theorem beforeLastItemFrom?_split {cs before : List Char}
    (h : beforeLastItemFrom? cs = some before) : ∃ rest, cs = before ++ '/' :: '-' :: rest := by
  induction cs generalizing before with
  | nil => cases h
  | cons c rest ih =>
      rw [beforeLastItemFrom?] at h
      split at h
      · next found hfound =>
          obtain rfl := Option.some.inj h
          obtain ⟨more, rfl⟩ := ih hfound
          exact ⟨more, rfl⟩
      · split at h
        · next hslash =>
            obtain rfl := Option.some.inj h
            obtain ⟨rfl, hminus⟩ := hslash
            obtain ⟨more, rfl⟩ := List.head?_eq_some_iff.mp hminus
            exact ⟨more, rfl⟩
        · cases h

theorem beforeLastItem?_split {a before : String} (h : beforeLastItem? a = some before) :
    ∃ rest, a = Pointer.anyItem before ++ rest := by
  obtain ⟨cs, hcs, rfl⟩ := Option.map_eq_some_iff.mp h
  obtain ⟨rest, hsplit⟩ := beforeLastItemFrom?_split hcs
  refine ⟨String.ofList rest, String.toList_inj.mp ?_⟩
  simp [hsplit, Pointer.anyItem, Pointer.wildcard]

theorem unstarred_beforeLastItem {a before : String} (h : Unstarred a)
    (hb : beforeLastItem? a = some before) : Unstarred before := by
  obtain ⟨rest, rfl⟩ := beforeLastItem?_split hb
  refine h.of_prefix ⟨('/' :: '-' :: rest.toList), ?_⟩
  simp [Pointer.anyItem, Pointer.wildcard]

/-- The data pointer of a control, if a list position is in it. -/
def itemSource? (c : Control) : Option String :=
  c.dataPointer.filter fun p => (beforeLastItem? p).isSome

mutual

/-- The controls are searched in the order in which they come. -/
theorem itemPointer?_eq : ∀ n : Node, itemPointer? n = n.controls.findSome? itemSource?
  | .mk c items => by
      rw [itemPointer?, Node.controls, List.findSome?_cons, itemPointerAmong?_eq items, itemSource?]
      cases c.dataPointer.filter fun p => (beforeLastItem? p).isSome <;> rfl

theorem itemPointerAmong?_eq :
    ∀ ns : List Node, itemPointerAmong? ns = (Node.controlsAll ns).findSome? itemSource?
  | [] => rfl
  | n :: rest => by
      rw [itemPointerAmong?, Node.controlsAll, List.findSome?_append, itemPointer?_eq n,
        itemPointerAmong?_eq rest]

end

theorem itemPointerAmong?_mem {ns : List Node} {a : String} (h : itemPointerAmong? ns = some a) :
    ∃ c ∈ Node.controlsAll ns, c.dataPointer = some a := by
  rw [itemPointerAmong?_eq] at h
  obtain ⟨c, hc, ha⟩ := List.exists_of_findSome?_eq_some h
  exact ⟨c, hc, (Option.filter_eq_some_iff.mp ha).1⟩

/-- A starless entry is bound to nothing that begins with a star. -/
theorem boundTo?_unstarred {p : Parts} (hp : p.Starless) {children : List Node}
    (hchildren : ∀ n ∈ children, n.Within Unstarred) {a : String}
    (h : boundTo? p children = some a) : Unstarred a := by
  unfold boundTo? at h
  rcases Option.or_eq_some_iff.mp h with h | ⟨-, h⟩
  · exact hp.dataPointer a h
  · split at h
    · next key hkey =>
        have hne : key ≠ "*" := by
          rintro rfl
          exact hp.key hkey
        rw [if_neg hne] at h
        obtain rfl := Option.some.inj h
        exact Written.unstarred ⟨_, rfl⟩
    · split at h
      · obtain ⟨item, hitem, hbefore⟩ := Option.bind_eq_some_iff.mp h
        obtain ⟨c, hc, ha⟩ := itemPointerAmong?_mem hitem
        obtain ⟨n, hn, hc⟩ := Node.mem_controlsAll.mp hc
        exact unstarred_beforeLastItem (hchildren n hn c hc item ha) hbefore
      · cases h

end Description

namespace Entry

/-- No star stands in the entry. -/
inductive Starless : Entry → Prop
  | leaf {item : Json} :
      (∀ parts, Description.ofJson? item = some parts → parts.Starless) → Starless (.leaf item)
  | branch {members : Members} {children : List Entry} :
      (Description.partsOf members).Starless → (∀ e ∈ children, Starless e) →
      Starless (.branch (.obj members) children)

mutual

/-- Decision procedure for `Starless`. -/
def starless : Entry → Bool
  | leaf item => (Description.ofJson? item).all fun parts => decide parts.Starless
  | branch (.obj members) children =>
      decide (Description.partsOf members).Starless && starlessAll children
  | branch _ _ => false

def starlessAll : List Entry → Bool
  | [] => true
  | e :: rest => starless e && starlessAll rest

end

mutual

theorem starless_iff : ∀ {e : Entry}, starless e = true ↔ e.Starless
  | leaf item => by
      rw [starless, Option.all_eq_true]
      constructor
      · intro h
        exact .leaf fun parts hparts => of_decide_eq_true (h parts hparts)
      · intro h parts hparts
        cases h with
        | leaf h => exact decide_eq_true (h parts hparts)
  | branch (.obj members) children => by
      rw [starless, Bool.and_eq_true, decide_eq_true_iff, starlessAll_iff]
      constructor
      · rintro ⟨hparts, hchildren⟩
        exact .branch hparts hchildren
      · intro h
        cases h with
        | branch hparts hchildren => exact ⟨hparts, hchildren⟩
  | branch .null _ => ⟨fun h => absurd h Bool.false_ne_true, fun h => nomatch h⟩
  | branch (.bool _) _ => ⟨fun h => absurd h Bool.false_ne_true, fun h => nomatch h⟩
  | branch (.num _) _ => ⟨fun h => absurd h Bool.false_ne_true, fun h => nomatch h⟩
  | branch (.str _) _ => ⟨fun h => absurd h Bool.false_ne_true, fun h => nomatch h⟩
  | branch (.arr _) _ => ⟨fun h => absurd h Bool.false_ne_true, fun h => nomatch h⟩

theorem starlessAll_iff :
    ∀ {entries : List Entry}, starlessAll entries = true ↔ ∀ e ∈ entries, e.Starless
  | [] => ⟨fun _ _ he => absurd he List.not_mem_nil, fun _ => rfl⟩
  | e :: rest => by
      rw [starlessAll, Bool.and_eq_true, starless_iff, starlessAll_iff, List.forall_mem_cons]

end

instance (e : Entry) : Decidable e.Starless := decidable_of_iff _ starless_iff

/-- The entry stands for everything in the schema, and has no children. -/
inductive IsStar : Entry → Prop
  | leaf {item : Json} {parts : Description.Parts} : Description.ofJson? item = some parts →
      Description.boundTo? parts [] = some "*" → IsStar (.leaf item)

instance : (e : Entry) → Decidable e.IsStar
  | leaf item =>
      decidable_of_iff (∃ parts ∈ Description.ofJson? item,
          Description.boundTo? parts [] = some "*")
        ⟨fun ⟨_, hparts, hstar⟩ => .leaf hparts hstar, fun ⟨hparts, hstar⟩ => ⟨_, hparts, hstar⟩⟩
  | branch _ _ => .isFalse fun h => nomatch h

/-- The entries have stars at the top only. -/
def StarsAtTop (entries : List Entry) : Prop := ∀ e ∈ entries, e.Starless ∨ e.IsStar

instance (entries : List Entry) : Decidable (StarsAtTop entries) :=
  inferInstanceAs (Decidable (∀ e ∈ entries, e.Starless ∨ e.IsStar))

end Entry

end SchemaForm
