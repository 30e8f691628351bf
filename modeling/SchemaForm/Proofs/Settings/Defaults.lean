/-
Default options that pass the check.

The check refuses the names of default options as they are written (`faults_eq_nil_iff`), while a
default is applied under its name without the prefix.  So from options that pass the check a
control has a refused name among its options exactly where a default has that name behind a prefix
and a value other than null (`refused_default_iff`).
-/
import SchemaForm.Proofs.Schema.Precedence
import SchemaForm.Settings.Check

namespace SchemaForm

namespace OptionFault

variable {name : String}

/-- The name is blank, or one of a structural keyword. -/
def Refused (name : String) : Prop :=
  Text.isAllBlank name = true ∨ name ∈ Schema.structuralKeywords

theorem ofName?_eq_none_iff : ofName? name = none ↔ ¬Refused name := by
  unfold ofName? Refused
  by_cases hblank : Text.isAllBlank name = true
  · simp only [hblank, if_true, reduceCtorEq, true_or, not_true_eq_false]
  · by_cases hkeyword : name ∈ Schema.structuralKeywords
    · simp [hblank, hkeyword]
    · simp [hblank, hkeyword]

/-- No option that follows from others has a refused name. -/
theorem Refused.not_derived (h : Refused name) : name ∉ Schema.derivedKeys := by
  intro hderived
  have hall : ∀ key ∈ Schema.derivedKeys,
      Text.isAllBlank key = false ∧ key ∉ Schema.structuralKeywords := by decide
  obtain ⟨hblank, hkeyword⟩ := hall name hderived
  rcases h with h | h
  · exact Bool.false_ne_true (hblank.symm.trans h)
  · exact hkeyword h

end OptionFault

namespace FormOptions

open OptionFault (Refused)
open Schema (Prefixed updateOptions)

variable {o : FormOptions} {name : String}

/-- What passes the check. -/
theorem faults_eq_nil_iff : o.faults = [] ↔
    o.maxItemsCap ≠ 0 ∧ ∀ name ∈ Table.names o.formDefaults, ¬Refused name := by
  rw [faults, List.append_eq_nil_iff, List.filterMap_eq_nil_iff]
  refine and_congr ?_ (forall₂_congr fun name _ => OptionFault.ofName?_eq_none_iff)
  by_cases hcap : o.maxItemsCap = 0 <;> simp [hcap]

/-- Where neither the node nor the schema says anything, options come from the defaults. -/
theorem get?_updateOptions_defaults (defaults : Members) (hname : name ∉ Schema.derivedKeys) :
    Table.get? (updateOptions [] (.obj []) defaults) name = Schema.given? name ([], defaults) := by
  rw [Schema.get?_updateOptions_layered _ _ _ hname, Schema.get?_layered]
  have hempty : ∀ skip : List String, Schema.given? name (skip, []) = none := fun _ => rfl
  have hobject : ∀ place : List String, Schema.objectAt (.obj []) place = [] := by
    intro place
    cases place <;> rfl
  simp only [Schema.precedence, hobject, List.findSome?_cons, hempty, List.findSome?_nil]
  cases Schema.given? name ([], defaults) <;> rfl

/-- **Refused names come in behind a prefix, and in no other way.**  Whatever passes the check, an
option of a refused name is there, with nothing from the node and the schema, if and only if a
default has the name behind a prefix and is not null. -/
theorem refused_default_iff (h : o.faults = []) (hname : Refused name) :
    name ∈ Table.names (updateOptions [] (.obj []) o.formDefaults) ↔
      ∃ entry ∈ o.formDefaults, entry.2.isNull = false ∧ Prefixed entry.1 ∧
        entry.1.toList.drop 3 = name.toList := by
  rw [← Table.get?_isSome_iff, get?_updateOptions_defaults _ hname.not_derived,
    Schema.given?_isSome_iff]
  refine exists_congr fun entry => and_congr_right fun hentry => and_congr_right fun _ => ?_
  simp only [List.not_mem_nil, not_false_eq_true, true_and, Schema.optionName_eq_iff]
  constructor
  · rintro (hprefixed | ⟨-, hsame⟩)
    · exact hprefixed
    · -- the check has seen the name as it is
      have hmem : entry.1 ∈ Table.names o.formDefaults := List.mem_map_of_mem hentry
      exact absurd (hsame ▸ hname) ((faults_eq_nil_iff.mp h).2 _ hmem)
  · exact .inl

/-- Options with the default `ui:items`. -/
def itemsDefault : FormOptions := { formDefaults := [("ui:items", .arr [])] }

/-- A keyword with the prefix passes the check and is an option of every control. -/
theorem refused_default_iff_items :
    itemsDefault.faults = [] ∧ Refused "items" ∧
      "items" ∈ Table.names (updateOptions [] (.obj []) itemsDefault.formDefaults) := by
  have hfaults : itemsDefault.faults = [] := by decide
  have hitems : Refused "items" := .inr (by decide)
  exact ⟨hfaults, hitems, (refused_default_iff hfaults hitems).mpr
    ⟨_, List.mem_singleton_self _, rfl, by decide, by decide⟩⟩

theorem not_defaults_harmless :
    ¬∀ o : FormOptions, o.faults = [] →
      ∀ name ∈ Table.names (updateOptions [] (.obj []) o.formDefaults), ¬Refused name := by
  intro h
  have hnames : Table.names (updateOptions [] (.obj []) itemsDefault.formDefaults) = ["items"] := by
    decide
  exact h itemsDefault (by decide) "items" (hnames ▸ List.mem_singleton_self _) (.inr (by decide))

end FormOptions

end SchemaForm
