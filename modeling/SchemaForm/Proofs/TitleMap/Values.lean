/-
The values that a selection offers.

With a list of allowed values every source brings single options without groups, whatever shape the
title map has (`source_ungrouped`), and they stand for allowed values, those that the title map
selects (`values_source`).  So there are no groups to arrange, and a required field has the entries
of the source.  A field that may be left out has an option for null: one of these entries or else
the entry that clears the selection, in front of them (`build_optional_cases`).  Together that is
`build_allowed`.
-/
import SchemaForm.Proofs.TitleMap.Groups

namespace SchemaForm

namespace TitleMap

variable {e e' : Entry} {es : List Entry} {titleMap : Option Json} {allowed : List Json}
  {value : Json}

/-! ## Values -/

/-- The values that an entry offers. -/
def Entry.values : Entry → List Json
  | .choice c => [c.value]
  | .bucket _ choices => choices.map Choice.value

/-- The values that entries offer, in order. -/
def values (es : List Entry) : List Json := es.flatMap Entry.values

/-- The value is one of those allowed, or is equal to one whatever the order of members. -/
def IsAllowed (allowed : List Json) (value : Json) : Prop :=
  value ∈ allowed ∨ allowed.contains value = true

theorem mem_values : value ∈ values es ↔ ∃ e ∈ es, value ∈ e.values := List.mem_flatMap

theorem isNull_iff : value.isNull = true ↔ value = .null := by
  cases value <;> simp [Json.isNull]

/-- An entry clears the selection if it offers null. -/
theorem hasEmpty_iff : e.hasEmpty = true ↔ .null ∈ e.values := by
  cases e with
  | choice c => rw [Entry.hasEmpty, isNull_iff, Entry.values, List.mem_singleton, eq_comm]
  | bucket group choices =>
      simp only [Entry.hasEmpty, Entry.values, List.any_eq_true, isNull_iff, List.mem_map]

theorem any_hasEmpty_iff : es.any Entry.hasEmpty = true ↔ .null ∈ values es := by
  simp only [List.any_eq_true, hasEmpty_iff, mem_values]

@[simp] theorem values_option_cons (name : String) (value : Json) (es : List Entry) :
    values (option name value :: es) = value :: values es := rfl

/-! ## What a title map selects -/

/-- The value of a single option. -/
def Entry.value? : Entry → Option Json
  | .choice c => some c.value
  | .bucket _ _ => none

/-- What a title map selects of the allowed values: as many as it has names, those that it has a
label for, or those that its options stand for, in the order of the options.  Without one it is all
of them. -/
def selected (titleMap : Option Json) (allowed : List Json) : List Json :=
  match titleMap with
  | some (.arr items) =>
      if !items.isEmpty && items.all Json.isStr then allowed.take items.length
      else ((items.filterMap Entry.ofJson?).filterMap Entry.value?).filter allowed.contains
  | some (.obj labels) => allowed.filter fun value => Table.has labels (label value)
  | _ => allowed

theorem isAllowed_of_selected (h : value ∈ selected titleMap allowed) :
    IsAllowed allowed value := by
  unfold selected at h
  split at h
  · split at h
    · exact .inl (List.mem_of_mem_take h)
    · exact .inr (List.mem_filter.mp h).2
  · exact .inl (List.mem_filter.mp h).1
  · exact .inl h

/-! ## Sources -/

theorem values_entries (es : List Entry) (allowed : List Json) :
    values (Source.entries es (some allowed)).toEntries =
      (es.filterMap Entry.value?).filter allowed.contains := by
  rw [Source.toEntries]
  induction es with
  | nil => rfl
  | cons e es ih =>
      cases e with
      | bucket group choices => exact ih
      | choice c =>
          have hvalue : (Entry.choice c :: es).filterMap Entry.value? =
              c.value :: es.filterMap Entry.value? := rfl
          rw [hvalue, List.filter_cons, ← ih, List.filterMap_cons, allowedOption?]
          by_cases hallowed : allowed.contains c.value = true
          · rw [if_pos hallowed, if_pos hallowed]
            rfl
          · rw [if_neg hallowed, if_neg hallowed]

theorem option_of_allowed (h : allowedOption? allowed e' = some e) :
    ∃ name value, e = option name value := by
  cases e' with
  | bucket group choices => cases h
  | choice c =>
      rw [allowedOption?] at h
      split at h
      · obtain rfl := Option.some.inj h
        exact ⟨_, _, rfl⟩
      · cases h

theorem values_parallel (names : List String) (allowed : List Json) :
    values (Source.parallel names allowed).toEntries = allowed.take names.length := by
  rw [Source.toEntries]
  induction names generalizing allowed with
  | nil => rfl
  | cons name names ih =>
      cases allowed with
      | nil => rfl
      | cons value allowed =>
          rw [List.zipWith_cons_cons, values_option_cons, ih, List.length_cons, List.take_succ_cons]

theorem values_keyed (labels : Members) (allowed : List Json) :
    values (Source.keyed labels (some allowed)).toEntries =
      allowed.filter fun value => Table.has labels (label value) := by
  rw [Source.toEntries]
  induction allowed with
  | nil => rfl
  | cons value allowed ih =>
      rw [List.filter_cons, ← ih, List.filterMap_cons, Table.has]
      cases Table.get? labels (label value) <;> rfl

theorem values_listed (allowed : List Json) :
    values (Source.values allowed).toEntries = allowed := by
  rw [Source.toEntries]
  induction allowed with
  | nil => rfl
  | cons value allowed ih => rw [List.map_cons, values_option_cons, ih]

theorem option_of_listed (h : e ∈ (Source.values allowed).toEntries) :
    ∃ name value, e = option name value := by
  obtain ⟨value, -, rfl⟩ := List.mem_map.mp h
  exact ⟨_, value, rfl⟩

/-- A list is read as names if it holds nothing else, and as options if not. -/
theorem of_arr (items allowed : List Json) : Source.of (some (.arr items)) (some allowed) =
    if !items.isEmpty && items.all Json.isStr then
      .parallel (items.filterMap Json.str?) allowed
    else .entries (items.filterMap Entry.ofJson?) (some allowed) := by
  dsimp only [Source.of]
  cases !items.isEmpty && items.all Json.isStr <;> rfl

/-- The entries of a source offer what its title map selects. -/
theorem values_source (titleMap : Option Json) (allowed : List Json) :
    values (Source.of titleMap (some allowed)).toEntries = selected titleMap allowed := by
  cases titleMap with
  | none => exact values_listed allowed
  | some j =>
      cases j with
      | arr items =>
          rw [of_arr, selected]
          split
          · next hnames =>
              have hlength : (items.filterMap Json.str?).length = items.length := by
                refine List.filterMap_length_eq_length.mpr fun item hitem => ?_
                exact List.all_eq_true.mp (Bool.and_eq_true_iff.mp hnames).2 item hitem
              rw [values_parallel, hlength]
          · exact values_entries _ allowed
      | obj labels => exact values_keyed labels allowed
      | _ => exact values_listed allowed

/-- With allowed values, every entry is a single option without a group. -/
theorem option_of_source (h : e ∈ (Source.of titleMap (some allowed)).toEntries) :
    ∃ name value, e = option name value := by
  cases titleMap with
  | none => exact option_of_listed h
  | some j =>
      cases j with
      | arr items =>
          rw [of_arr] at h
          split at h
          · obtain ⟨i, hi, rfl⟩ := List.mem_iff_getElem.mp h
            exact ⟨_, _, List.getElem_zipWith⟩
          · obtain ⟨found, -, hfound⟩ := List.mem_filterMap.mp h
            exact option_of_allowed hfound
      | obj labels =>
          obtain ⟨value, -, hlabel⟩ := List.mem_filterMap.mp h
          obtain ⟨name, -, rfl⟩ := Option.map_eq_some_iff.mp hlabel
          exact ⟨_, _, rfl⟩
      | _ => exact option_of_listed h

theorem source_ungrouped (titleMap : Option Json) (allowed : List Json) :
    (Source.of titleMap (some allowed)).toEntries.any Entry.isGrouped = false := by
  rw [List.any_eq_false]
  intro e he
  obtain ⟨name, value, rfl⟩ := option_of_source he
  exact Bool.false_ne_true

/-! ## Title maps -/

/-- A field that may be left out has the entries of a required one, behind one for null where none
of them offers it. -/
theorem build_optional_cases (titleMap : Option Json) (listed : Option (List Json)) (flat : Bool) :
    (.null ∈ values (build titleMap listed true flat) ∧
        build titleMap listed false flat = build titleMap listed true flat) ∨
      (.null ∉ values (build titleMap listed true flat) ∧
        build titleMap listed false flat =
          option noneLabel .null :: build titleMap listed true flat) := by
  rw [build_required, ← any_hasEmpty_iff, build]
  cases (arrange flat (Source.of titleMap listed).toEntries).any Entry.hasEmpty with
  | true => exact .inl ⟨rfl, rfl⟩
  | false => exact .inr ⟨Bool.false_ne_true, rfl⟩

/-- **Selections offer allowed values.**  For every title map or none, every list of allowed values,
flat or grouped: a required field has the entries of the source and nothing else.  They offer what
the title map selects of the allowed values, so that each of them stands for an allowed one.  A
field that may be left out has an option for null: its entries are the same if null is among these
values, and otherwise the entry that clears the selection stands in front of them. -/
theorem build_allowed (titleMap : Option Json) (allowed : List Json) (flat : Bool) :
    build titleMap (some allowed) true flat = (Source.of titleMap (some allowed)).toEntries ∧
      values (build titleMap (some allowed) true flat) = selected titleMap allowed ∧
      (∀ value ∈ values (build titleMap (some allowed) true flat), IsAllowed allowed value) ∧
      .null ∈ values (build titleMap (some allowed) false flat) ∧
      (build titleMap (some allowed) false flat = build titleMap (some allowed) true flat ↔
        .null ∈ values (build titleMap (some allowed) true flat)) ∧
      (build titleMap (some allowed) false flat =
          option noneLabel .null :: build titleMap (some allowed) true flat ↔
        .null ∉ values (build titleMap (some allowed) true flat)) := by
  have hrequired : build titleMap (some allowed) true flat =
      (Source.of titleMap (some allowed)).toEntries := by
    rw [build_required, arrange, source_ungrouped, if_neg Bool.false_ne_true]
  have hvalues : values (build titleMap (some allowed) true flat) = selected titleMap allowed := by
    rw [hrequired, values_source]
  refine ⟨hrequired, hvalues, ?_, ?_⟩
  · rw [hvalues]
    exact fun value => isAllowed_of_selected
  · rcases build_optional_cases titleMap (some allowed) flat with
      ⟨hnull, hsame⟩ | ⟨hnull, hadded⟩
    · rw [hsame]
      exact ⟨hnull, iff_of_true rfl hnull,
        iff_of_false (List.cons_ne_self _ _).symm (not_not_intro hnull)⟩
    · rw [hadded]
      exact ⟨mem_values.mpr ⟨_, List.mem_cons_self, List.mem_singleton_self _⟩,
        iff_of_false (List.cons_ne_self _ _) hnull, iff_of_true rfl hnull⟩

end TitleMap

end SchemaForm
