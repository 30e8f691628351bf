/-
Fields that are found again.

In a legible schema no name of a property is read as the position of an item, and every position
is a word.  Where all schemas that describe data are legible a field is found by its place, and
its path leads back to the place:

    locateFrom? root place = some (.declared path s)        dataSegments? root path = some place

so that path and place determine each other.  Every field that is an object is among the schema
objects of the document (`Field.mem_objects`).
-/
import SchemaForm.Proofs.Reference.Strayed
import SchemaForm.Proofs.Schema.Fields
import SchemaForm.Proofs.Schema.Objects
import SchemaForm.Proofs.Schema.Projection

namespace SchemaForm

namespace Schema

variable {root s t : Json} {path place above below data more : List String} {key : String}
  {role : Role} {v : Json}

/-! ## Legible schemas -/

/-- Whether the schema is looked up as that of an array. -/
def isArrayLike (s : Json) : Bool := isTyped s "array" || s.has "items"

/-- The schema has no property whose name is read as a position, and no more fixed positions than
there are words. -/
structure Legible (s : Json) : Prop where
  names : isArrayLike s = true → ∀ properties,
    (s.get? "properties").bind Json.obj? = some properties →
      ∀ entry ∈ properties, isPosition entry.1 = false
  positions : ∀ tuple, s.get? "items" = some (.arr tuple) → tuple.length ≤ Number.wordLimit

/-- Every schema that describes data of the document is legible. -/
def AllLegible (root : Json) : Prop := ∀ path place s, Field root path place s → Legible s

theorem index?_of_lt {i : Nat} (h : i < Number.wordLimit) :
    Pointer.index? (Nat.repr i) = some i := by
  rw [Pointer.index?_repr, Option.filter_some, if_pos (decide_eq_true h)]

theorem Legible.index? (h : Legible s) {tuple : List Json} {i : Nat}
    (htuple : s.get? "items" = some (.arr tuple)) (ht : tuple[i]? = some t) :
    Pointer.index? (Nat.repr i) = some i := by
  obtain ⟨hlt, -⟩ := List.getElem?_eq_some_iff.mp ht
  exact index?_of_lt (Nat.lt_of_lt_of_le hlt (h.positions tuple htuple))

theorem Legible.stepInto?_property (h : Legible s) {properties : Members}
    (hproperties : (s.get? "properties").bind Json.obj? = some properties)
    (ht : Table.get? properties key = some t) :
    stepInto? s key = some (.declared ["properties", key] t) := by
  refine Schema.stepInto?_property hproperties ht ?_
  rintro ⟨harray, hposition⟩
  have hnot := h.names harray properties hproperties _ (Table.mem_of_get? ht)
  rw [hposition] at hnot
  exact absurd hnot.symm Bool.false_ne_true

theorem get?_of_arr {tuple : List Json} (h : (s.get? key).bind Json.arr? = some tuple) :
    s.get? key = some (.arr tuple) := by
  obtain ⟨found, hfound, harr⟩ := Option.bind_eq_some_iff.mp h
  cases found with
  | arr items => exact Option.some.inj harr ▸ hfound
  | _ => cases harr

theorem get?_of_obj {members : Members} (h : (s.get? key).bind Json.obj? = some members) :
    s.get? key = some (.obj members) := by
  obtain ⟨found, hfound, hobj⟩ := Option.bind_eq_some_iff.mp h
  cases found with
  | obj entries => exact Option.some.inj hobj ▸ hfound
  | _ => cases hobj

theorem Legible.stepInto?_position (h : Legible s) {tuple : List Json} {i : Nat}
    (htuple : (s.get? "items").bind Json.arr? = some tuple) (ht : tuple[i]? = some t) :
    stepInto? s (Nat.repr i) = some (.declared ["items", Nat.repr i] t) := by
  have hindex := h.index? (get?_of_arr htuple) ht
  refine Schema.stepInto?_position (get?_of_arr htuple) ht ?_
  rw [hindex]
  exact Option.some_ne_none i

/-- Any position of a list is described by its item schema. -/
theorem stepInto?_list {members : Members} (hitems : s.get? "items" = some (.obj members))
    (hposition : isPosition key = true) :
    stepInto? s key = some (.declared ["items"] (.obj members)) := by
  rw [stepInto?_item hitems hposition]
  simp only [itemAt?, hitems, Option.some_or]

/-- A field is found by its place. -/
theorem Field.found (hroot : AllLegible root) (h : Field root path place s) :
    locateFrom? root place = some (.declared path s) := by
  induction h with
  | root => rfl
  | property hs hproperties ht ih =>
      exact locateFrom?_concat ih ((hroot _ _ _ hs).stepInto?_property hproperties ht)
  | position hs htuple ht ih =>
      exact locateFrom?_concat ih ((hroot _ _ _ hs).stepInto?_position htuple ht)
  | items hs hitems ih => exact locateFrom?_concat ih (stepInto?_items hitems)
  | additional hs htuple hadditional ih =>
      exact locateFrom?_concat ih (stepInto?_additional htuple hadditional)

/-- Fields at one place are the same field. -/
theorem Field.unique (hroot : AllLegible root) {path' : List String} {s' : Json}
    (h : Field root path place s) (h' : Field root path' place s') : path = path' ∧ s = s' := by
  have he := (h.found hroot).symm.trans (h'.found hroot)
  simpa only [Option.some.injEq, Found.declared.injEq] using he

/-! ## Back to the place -/

theorem Leads.trans {a b c : Json} (hab : Leads a above data b) (hbc : Leads b below more c) :
    Leads a (above ++ below) (data ++ more) c := by
  induction hab with
  | here => exact hbc
  | property hnext _ ih => exact .property hnext (ih hbc)
  | tuple hitems hi hnext _ ih => exact .tuple hitems hi hnext (ih hbc)
  | list hitems harr _ ih => exact .list hitems harr (ih hbc)
  | additional hitems _ ih => exact .additional hitems (ih hbc)

theorem Field.leads (hroot : AllLegible root) (h : Field root path place s) :
    Leads root path place s := by
  induction h with
  | root => exact .here
  | property hs hproperties ht ih =>
      refine ih.trans (.property ?_ .here)
      rw [get?_of_obj hproperties, Option.bind_some]
      exact ht
  | position hs htuple ht ih =>
      have hitems := get?_of_arr htuple
      exact ih.trans (.tuple hitems ((hroot _ _ _ hs).index? hitems ht) ht .here)
  | items hs hitems ih => exact ih.trans (.list hitems rfl .here)
  | additional hs htuple hadditional ih => exact ih.trans (.additional hadditional .here)

/-- The path of a field leads back to its place. -/
theorem Field.dataSegments? (hroot : AllLegible root) (h : Field root path place s) :
    Schema.dataSegments? root path = some place :=
  dataSegments?_eq_some.mpr ⟨s, h.leads hroot⟩

theorem Field.toDataPointer? (hroot : AllLegible root) (h : Field root path place s) :
    Schema.toDataPointer? root (Pointer.ofSegments path) = some (Pointer.ofSegments place) := by
  rw [Schema.toDataPointer?, Pointer.segments?_ofSegments, Option.bind_some,
    h.dataSegments? hroot, Option.map_some]

/-! ## Fields among the schema objects -/

section Objects

variable {here : String} {members : Members} {object : String × Members}

theorem subset_objectsOfItems {items : List Json} {i : Nat} (hx : items[i]? = some v)
    (index : Nat) :
    objectsFrom (Pointer.item here (index + i)) .schema v ⊆ objectsOfItems here index items := by
  induction items generalizing i index with
  | nil => cases hx
  | cons x xs ih =>
      rw [objectsOfItems]
      cases i with
      | zero =>
          obtain rfl := Option.some.inj hx
          exact List.subset_append_left _ _
      | succ i =>
          have hrest := ih hx (index + 1)
          rw [Nat.add_assoc, Nat.add_comm 1 i] at hrest
          exact List.subset_append_of_subset_right _ hrest

theorem subset_objectsOfMap {entries : Members} (hm : (key, v) ∈ entries) :
    objectsFrom (Pointer.child here key) .schema v ⊆ objectsOfMap here entries := by
  induction entries with
  | nil => exact absurd hm List.not_mem_nil
  | cons entry rest ih =>
      obtain ⟨name, value⟩ := entry
      rw [objectsOfMap]
      rcases List.mem_cons.mp hm with he | hm
      · obtain ⟨rfl, rfl⟩ := Prod.mk.inj he
        exact List.subset_append_left _ _
      · exact List.subset_append_of_subset_right _ (ih hm)

theorem subset_objectsOfMembers (hm : (key, v) ∈ members)
    (hrole : Role.ofKeyword? key = some role) :
    objectsFrom (Pointer.child here key) role v ⊆ objectsOfMembers here members := by
  induction members with
  | nil => exact absurd hm List.not_mem_nil
  | cons entry rest ih =>
      obtain ⟨name, value⟩ := entry
      rw [objectsOfMembers]
      rcases List.mem_cons.mp hm with he | hm
      · obtain ⟨rfl, rfl⟩ := Prod.mk.inj he
        rw [hrole]
        exact List.subset_append_left _ _
      · exact List.subset_append_of_subset_right _ (ih hm)

/-- What is listed below an object that is listed is listed. -/
theorem subset_objectsFrom (hm : object ∈ objectsFrom here role v) :
    objectsOfMembers object.1 object.2 ⊆ objectsFrom here role v := by
  induction role, v using role_induction generalizing here with
  | list role items ih =>
      rw [objectsFrom_list] at hm ⊢
      obtain ⟨i, x, hx, hm⟩ := mem_objectsOfItems hm
      exact List.Subset.trans (ih x (List.mem_of_getElem? hx) hm) (subset_objectsOfItems hx 0)
  | map entries ih =>
      obtain ⟨name, w, hw, hm⟩ := mem_objectsOfMap hm
      exact List.Subset.trans (ih (name, w) hw hm) (subset_objectsOfMap hw)
  | schema members ih =>
      rcases List.mem_cons.mp hm with rfl | hm
      · exact List.subset_cons_self _ _
      · obtain ⟨key, w, role, hw, hr, hm⟩ := mem_objectsOfMembers hm
        refine List.Subset.trans (ih (key, w) hw role hr hm) ?_
        exact List.subset_cons_of_subset _ (subset_objectsOfMembers hw hr)
  | scalar role v harr hobj =>
      rw [objectsFrom_scalar harr hobj] at hm
      exact absurd hm List.not_mem_nil

theorem mem_objectsFrom_schema (here : String) (members : Members) :
    (here, members) ∈ objectsFrom here .schema (.obj members) := by
  rw [objectsFrom]
  exact List.mem_cons_self

/-- What is listed under a keyword of an object that is listed is listed. -/
theorem subset_objects (hm : (Pointer.ofSegments path, members) ∈ objects root)
    (hget : Table.get? members key = some v) (hrole : Role.ofKeyword? key = some role) :
    objectsFrom (Pointer.ofSegments (path ++ [key])) role v ⊆ objects root := by
  rw [← Pointer.child_ofSegments]
  exact List.Subset.trans (subset_objectsOfMembers (Table.mem_of_get? hget) hrole)
    (subset_objectsFrom hm)

theorem exists_members (h : s.get? key = some v) :
    ∃ members, s = .obj members ∧ Table.get? members key = some v := by
  cases s with
  | obj members => exact ⟨members, rfl, h⟩
  | _ => cases h

/-- A field that is an object is a schema object of the document. -/
theorem Field.mem_objects (h : Field root path place (.obj members)) :
    (Pointer.ofSegments path, members) ∈ objects root := by
  generalize hs : Json.obj members = s at h
  induction h generalizing members with
  | root =>
      subst hs
      exact mem_objectsFrom_schema "" members
  | @property path _ s t properties name _ hproperties ht ih =>
      subst hs
      obtain ⟨held, rfl, hget⟩ := exists_members (get?_of_obj hproperties)
      have hrole : Role.ofKeyword? "properties" = some .map := rfl
      refine subset_objects (ih rfl) hget hrole ?_
      refine subset_objectsOfMap (Table.mem_of_get? ht) ?_
      rw [Pointer.child_ofSegments, List.append_assoc]
      exact mem_objectsFrom_schema _ _
  | @position path _ s t tuple index _ htuple ht ih =>
      subst hs
      obtain ⟨held, rfl, hget⟩ := exists_members (get?_of_arr htuple)
      have hrole : Role.ofKeyword? "items" = some .schema := rfl
      refine subset_objects (ih rfl) hget hrole (subset_objectsOfItems ht 0 ?_)
      rw [Nat.zero_add, Pointer.item_ofSegments, List.append_assoc]
      exact mem_objectsFrom_schema _ _
  | items _ hitems ih =>
      obtain rfl := Json.obj.inj hs
      obtain ⟨held, rfl, hget⟩ := exists_members hitems
      exact subset_objects (ih rfl) hget rfl (mem_objectsFrom_schema _ _)
  | additional _ _ hadditional ih =>
      obtain rfl := Json.obj.inj hs
      obtain ⟨held, rfl, hget⟩ := exists_members hadditional
      exact subset_objects (ih rfl) hget rfl (mem_objectsFrom_schema _ _)

end Objects

end Schema

end SchemaForm
