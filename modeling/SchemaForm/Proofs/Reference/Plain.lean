/-
Schemas without references.

Where no schema object holds a reference (`Unlinked`) an expansion is one walk over the value:
every schema object is finished after what is in it, data is left alone (`tidy`), and the
definitions at the top are left out (`tidyDocument`).  So a schema without references is always
resolved (`Resolved.of?_unlinked`).
-/
import SchemaForm.Proofs.Reference.Strayed
import SchemaForm.Proofs.Schema.Keeping
import SchemaForm.Proofs.Schema.Objects

namespace SchemaForm

open Schema (Role Hereditary)

namespace Expansion

mutual

/-- What the expansion of a value without references gives. -/
def tidy : Role → Json → Json
  | _, .arr items => .arr (tidyItems items)
  | .map, .obj entries => .obj (tidyMap entries)
  | .schema, .obj members => finish (.obj (tidyMembers members))
  | _, other => other

def tidyItems : List Json → List Json
  | [] => []
  | x :: xs => tidy .schema x :: tidyItems xs

def tidyMap : List (String × Json) → List (String × Json)
  | [] => []
  | (name, value) :: rest => (name, tidy .schema value) :: tidyMap rest

def tidyMembers : List (String × Json) → List (String × Json)
  | [] => []
  | (key, value) :: rest =>
      (key, match Role.ofKeyword? key with
        | some role => tidy role value
        | none => value) :: tidyMembers rest

end

/-- What the value of a keyword becomes. -/
def tidyKeyword (key : String) (value : Json) : Json :=
  match Role.ofKeyword? key with
  | some role => tidy role value
  | none => value

/-- What the expansion of a document without references gives. -/
def tidyDocument : Json → Json
  | .obj members =>
      finish (.obj (tidyMembers (members.filter fun member => !isLeftOut "" member.1)))
  | other => tidy .schema other

variable {root v : Json} {graph : Graph} {stack : List Frame} {source place key : String}
  {role : Role} {members : Members} {items : List Json} {n : Nat}

theorem tidyItems_eq (items : List Json) : tidyItems items = items.map (tidy .schema) := by
  induction items with
  | nil => rfl
  | cons x xs ih => rw [tidyItems, ih, List.map_cons]

theorem tidy_arr (role : Role) (items : List Json) :
    tidy role (.arr items) = .arr (items.map (tidy .schema)) := by
  rw [← tidyItems_eq]
  cases role <;> rfl

theorem tidy_scalar (harr : v.arr? = none) (hobj : v.obj? = none) : tidy role v = v := by
  cases v with
  | arr items => cases harr
  | obj members => cases hobj
  | _ => cases role <;> rfl

theorem tidyMap_eq (entries : Members) :
    tidyMap entries = entries.map fun entry => (entry.1, tidy .schema entry.2) := by
  induction entries with
  | nil => rfl
  | cons entry rest ih => rw [tidyMap, ih, List.map_cons]

theorem tidyMembers_eq (members : Members) :
    tidyMembers members = members.map fun entry => (entry.1, tidyKeyword entry.1 entry.2) := by
  induction members with
  | nil => rfl
  | cons entry rest ih =>
      rw [tidyMembers, ih, List.map_cons]
      rfl

theorem names_tidyMembers (members : Members) :
    Table.names (tidyMembers members) = Table.names members := by
  rw [tidyMembers_eq, Table.names, List.map_map]
  rfl

theorem names_tidyMap (entries : Members) :
    Table.names (tidyMap entries) = Table.names entries := by
  rw [tidyMap_eq, Table.names, List.map_map]
  rfl

/-- Where every schema object is finished already, tidying changes nothing. -/
theorem tidy_of_finished (h : Schema.EachObject
    (fun members => finish (.obj members) = .obj members) role v) : tidy role v = v := by
  induction role, v using Schema.role_induction with
  | list role items ih =>
      rw [tidy_arr]
      have hitems := (Schema.eachObject_arr role).mp h
      exact congrArg Json.arr
        ((List.map_congr_left fun x hx => ih x hx (hitems x hx)).trans (List.map_id' items))
  | map entries ih =>
      have hentries := Schema.eachObject_map.mp h
      rw [tidy, tidyMap_eq]
      refine congrArg Json.obj
        ((List.map_congr_left fun entry hm => ?_).trans (List.map_id' entries))
      rw [ih entry hm (hentries entry hm)]
  | schema members ih =>
      obtain ⟨hself, hbelow⟩ := Schema.eachObject_schema.mp h
      have hmembers : tidyMembers members = members := by
        rw [tidyMembers_eq]
        refine (List.map_congr_left fun entry hm => ?_).trans (List.map_id' members)
        have hvalue : tidyKeyword entry.1 entry.2 = entry.2 := by
          unfold tidyKeyword
          split
          · next role hrole => exact ih entry hm role hrole (hbelow entry hm role hrole)
          · rfl
        rw [hvalue]
      rw [tidy, hmembers, hself]
  | scalar role v harr hobj => exact tidy_scalar harr hobj

/-! ## The walk -/

/-- No schema object in the value has a reference; data may, and a `$ref` may hold anything else. -/
def Unlinked (role : Role) (v : Json) : Prop :=
  Schema.EachObject (fun members => Schema.reference? members = none) role v

theorem reference?_eq_none (h : "$ref" ∉ Table.names members) :
    Schema.reference? members = none := by
  rw [Schema.reference?, Table.get?_eq_none_iff.mpr h]
  rfl

theorem unlinked_of_lacks (h : v.Lacks "$ref") : Unlinked role v :=
  (Schema.eachObject_of_everywhere h).imp fun _ => reference?_eq_none

/-- A nesting that is deep enough tidies values no larger than the number. -/
def Tidies (root : Json) (graph : Graph) (n : Nat) : Prop :=
  ∀ (stack : List Frame) (source place : String) (role : Role) (value : Json), value.size ≤ n →
    source ≠ "" → Unlinked role value → expand root graph n stack source place role value =
      some (tidy role value)

theorem expandItems_plain (ih : Tidies root graph n) {place : Nat → String}
    (hn : Json.sizeItems items ≤ n) (hp : ∀ x ∈ items, Unlinked .schema x) :
    expandItems (expand root graph n) stack source place items =
      some (items.map (tidy .schema)) := by
  have hitem : ∀ entry ∈ items.zipIdx, expand root graph n stack (Pointer.item source entry.2)
      (place entry.2) .schema entry.1 = some (tidy .schema entry.1) := by
    intro entry hm
    have hmem : entry.1 ∈ items := List.fst_mem_of_mem_zipIdx hm
    exact ih _ _ _ _ _ (Nat.le_trans (Json.size_le_of_mem hmem) hn)
      (Pointer.slash_ne_empty _ _) (hp _ hmem)
  rw [expandItems, mapM_some (g := fun entry => tidy .schema entry.1) hitem]
  rw [show (fun entry : Json × Nat => tidy .schema entry.1) = tidy .schema ∘ Prod.fst from rfl,
    ← List.map_map, List.zipIdx_map_fst]

theorem expandMap_plain (ih : Tidies root graph n) (hn : Json.sizeMembers members ≤ n)
    (hp : ∀ entry ∈ members, Unlinked .schema entry.2) :
    expandMap (expand root graph n) stack source place members = some (tidyMap members) := by
  rw [expandMap, tidyMap_eq]
  refine mapM_some ?_
  rintro ⟨name, value⟩ hm
  have hsize := Json.size_le_of_member hm
  have hvalue := ih stack (Pointer.child source name) (Pointer.child place name) .schema value
    (Nat.le_trans hsize hn) (Pointer.slash_ne_empty _ _) (hp _ hm)
  simp only [hvalue]
  rfl

theorem expandKeyword_plain (ih : Tidies root graph n) (hn : v.size ≤ n)
    (hp : ∀ role, Role.ofKeyword? key = some role → Unlinked role v) :
    expandKeyword (expand root graph n) stack source place key v = some (tidyKeyword key v) := by
  unfold expandKeyword tidyKeyword
  split
  · next hr => rw [hr]
  · next role items hr =>
      have hsize : Json.sizeItems items ≤ n := by
        rw [Json.size] at hn
        omega
      have hitems := (Schema.eachObject_arr role).mp (hp role hr)
      simp only [hr, tidy_arr, expandItems_plain ih hsize hitems, Option.map_some]
  · next role _ hr =>
      rw [hr]
      exact ih _ _ _ _ _ hn (Pointer.slash_ne_empty _ _) (hp role hr)

theorem expandMembers_plain (ih : Tidies root graph n) (hn : Json.sizeMembers members ≤ n)
    (hp : ∀ entry ∈ members, ∀ role, Role.ofKeyword? entry.1 = some role → Unlinked role entry.2) :
    expandMembers (expand root graph n) stack source place members =
      some (tidyMembers (members.filter fun member => !isLeftOut source member.1)) := by
  rw [expandMembers, tidyMembers_eq]
  refine mapM_some ?_
  rintro ⟨key, value⟩ hm
  have hmem := (List.mem_filter.mp hm).1
  have hsize := Json.size_le_of_member hmem
  have hvalue : expandKeyword (expand root graph n) stack source place key value =
      some (tidyKeyword key value) :=
    expandKeyword_plain ih (Nat.le_trans hsize hn) (hp _ hmem)
  simp only [hvalue]
  rfl

theorem expandSchema_plain (ih : Tidies root graph n) (hn : Json.sizeMembers members ≤ n)
    (hp : Unlinked .schema (.obj members)) :
    expandSchema root graph (expand root graph n) stack source place members =
      some (finish (.obj (tidyMembers
        (members.filter fun member => !isLeftOut source member.1)))) := by
  obtain ⟨hself, hbelow⟩ := Schema.eachObject_schema.mp hp
  rw [expandSchema, expandMembers_plain ih hn hbelow, hself]
  rfl

theorem tidies (root : Json) (graph : Graph) (n : Nat) : Tidies root graph n := by
  induction n with
  | zero =>
      intro stack source place role value hn
      have := Json.size_pos value
      omega
  | succ n ih =>
      intro stack source place role value hn hsource hp
      cases value with
      | arr items =>
          rw [Json.size] at hn
          have hitems := (Schema.eachObject_arr role).mp hp
          rw [expand, expandItems_plain ih (by omega) hitems, tidy_arr]
          rfl
      | obj members =>
          rw [Json.size] at hn
          cases role with
          | map =>
              rw [expand, expandMap_plain ih (by omega) (Schema.eachObject_map.mp hp)]
              rfl
          | schema =>
              have hall : ∀ member ∈ members, (!isLeftOut source member.1) = true := by
                intro member _
                rw [isLeftOut, beq_false_of_ne hsource]
                rfl
              rw [expand, expandSchema_plain ih (by omega) hp, List.filter_eq_self.mpr hall, tidy]
      | null | bool _ | num _ | str _ => cases role <;> rfl

/-- A document is read from its empty pointer. -/
theorem expand_document (hn : v.size ≤ n) (hp : Unlinked .schema v) :
    expand root graph (n + 1) stack "" place .schema v = some (tidyDocument v) := by
  have ih := tidies root graph n
  cases v with
  | arr items =>
      rw [Json.size] at hn
      rw [expand, expandItems_plain ih (by omega) ((Schema.eachObject_arr .schema).mp hp),
        tidyDocument, tidy_arr]
      · rfl
      · exact fun _ h => by cases h
  | obj members =>
      rw [Json.size] at hn
      rw [expand, expandSchema_plain ih (by omega) hp, tidyDocument]
  | null | bool _ | num _ | str _ => rfl

theorem run?_plain (hp : Unlinked .schema root) :
    run? root graph root "" = some (tidyDocument root) := by
  have hdepth : root.size + 1 ≤ depthLimit root := by
    refine Nat.le_trans ?_ (Nat.le_mul_of_pos_right _ (by omega))
    omega
  obtain ⟨n, hn⟩ := Nat.exists_eq_add_of_le' (Nat.le_trans (Nat.le_add_left 1 _) hdepth)
  rw [run?, hn]
  exact expand_document (by omega) hp

/-! ## What is kept everywhere -/

section Kept

variable {P : Members → Prop} (hP : Hereditary P)

include hP in
theorem finish_everywhere (h : v.Everywhere P) : (finish v).Everywhere P :=
  Schema.moveRequired_everywhere hP (Schema.collapseAllOf_everywhere hP h)

variable (hnames : ∀ {ms ns : Members}, (Table.names ns).Sublist (Table.names ms) → P ms → P ns)

include hnames

/-- Tidied members have the property when it is kept in the value of each keyword. -/
theorem tidyMembers_everywhere (ih : ∀ entry ∈ members, ∀ role,
      Role.ofKeyword? entry.1 = some role → entry.2.Everywhere P →
        (tidy role entry.2).Everywhere P) (h : (Json.obj members).Everywhere P) :
    (Json.obj (tidyMembers members)).Everywhere P := by
  obtain ⟨hself, hbelow⟩ := Json.everywhere_obj.mp h
  have hsub := (names_tidyMembers members ▸ List.Sublist.refl _ :
    (Table.names (tidyMembers members)).Sublist (Table.names members))
  refine Json.everywhere_obj.mpr ⟨hnames hsub hself, ?_⟩
  rw [tidyMembers_eq, List.forall_mem_map]
  intro entry hm
  unfold tidyKeyword
  split
  · next role hrole => exact ih entry hm role hrole (hbelow entry hm)
  · exact hbelow entry hm

include hP

theorem tidy_everywhere (role : Role) (h : v.Everywhere P) : (tidy role v).Everywhere P := by
  induction role, v using Schema.role_induction with
  | list role items ih =>
      rw [tidy_arr, Json.everywhere_arr, List.forall_mem_map]
      exact fun x hx => ih x hx (Json.everywhere_arr.mp h x hx)
  | map entries ih =>
      obtain ⟨hself, hbelow⟩ := Json.everywhere_obj.mp h
      rw [tidy, Json.everywhere_obj]
      refine ⟨hnames (names_tidyMap entries ▸ List.Sublist.refl _) hself, ?_⟩
      rw [tidyMap_eq, List.forall_mem_map]
      exact fun entry hm => ih entry hm (hbelow entry hm)
  | schema members ih =>
      rw [tidy]
      exact finish_everywhere hP (tidyMembers_everywhere hnames ih h)
  | scalar role v harr hobj => rwa [tidy_scalar harr hobj]

theorem tidyDocument_everywhere (h : v.Everywhere P) : (tidyDocument v).Everywhere P := by
  cases v with
  | obj members =>
      refine finish_everywhere hP (tidyMembers_everywhere hnames
        (fun _ _ role _ hv => tidy_everywhere hP hnames role hv) ?_)
      obtain ⟨hself, hbelow⟩ := Json.everywhere_obj.mp h
      refine Json.everywhere_obj.mpr ⟨hnames (List.filter_sublist.map _) hself, fun entry hm => ?_⟩
      exact hbelow entry (List.mem_filter.mp hm).1
  | arr items => exact tidy_everywhere hP hnames .schema h
  | null | bool _ | num _ | str _ => exact h

end Kept

theorem hereditary_not_mem (h : key ≠ "allOf" ∧ key ≠ "required") :
    Hereditary fun members => key ∉ Table.names members where
  nil := List.not_mem_nil
  single _ hm := h.1 (List.mem_singleton.mp hm)
  insert {ms ns other} v hms hns hother hm := by
    obtain ⟨value, hm⟩ := Table.mem_names.mp hm
    rcases Table.mem_insert hm with he | hm
    · exact hns ((Prod.mk.inj he).1 ▸ hother)
    · exact hms (Table.mem_names.mpr ⟨value, hm⟩)
  required {ms} v hms hm := by
    obtain ⟨value, hm⟩ := Table.mem_names.mp hm
    rcases Table.mem_insert hm with he | hm
    · exact h.2 (Prod.mk.inj he).1
    · exact hms (Table.mem_names.mpr ⟨value, hm⟩)
  erase {ms} other hms hm := by
    obtain ⟨value, hm⟩ := Table.mem_names.mp hm
    exact hms (Table.mem_names.mpr ⟨value, Table.mem_swapErase hm⟩)

theorem tidy_distinct (role : Role) (h : v.Distinct) : (tidy role v).Distinct :=
  Json.distinct_iff.mpr (tidy_everywhere Schema.hereditary_nodup
    (fun hsub hms => hms.sublist hsub) role (Json.distinct_iff.mp h))

theorem tidyDocument_distinct (h : v.Distinct) : (tidyDocument v).Distinct :=
  Json.distinct_iff.mpr (tidyDocument_everywhere Schema.hereditary_nodup
    (fun hsub hms => hms.sublist hsub) (Json.distinct_iff.mp h))

theorem tidyDocument_lacks (h : v.Lacks "$ref") : (tidyDocument v).Lacks "$ref" :=
  tidyDocument_everywhere (hereditary_not_mem (by decide))
    (fun hsub hms hm => hms (hsub.subset hm)) h

end Expansion

/-! ## Documents -/

namespace Resolved

open Expansion (tidyDocument Unlinked)

variable {document : Json}

theorem links_plain (hp : Unlinked .schema document) : (Graph.of document).links = [] := by
  refine List.filterMap_eq_nil_iff.mpr fun object hm => ?_
  simp only [(Schema.eachObject_iff "").mp hp object hm, Option.map_none]

theorem targets_plain (hp : Unlinked .schema document) :
    (Graph.of document).targets = [] := by
  rw [Graph.targets, links_plain hp]
  rfl

/-- **Schemas without references are resolved.** -/
theorem of?_unlinked (hp : Unlinked .schema document) :
    of? document = some ((Schema.objects (tidyDocument document)).foldl note
      ⟨tidyDocument document, [], [], [], [], Graph.of document⟩) := by
  have htargets : targets? document (Graph.of document) = some [] := by
    rw [targets?, targets_plain hp]
    rfl
  rw [of?, Expansion.run?_plain hp, htargets]
  rfl

theorem of?_plain (hp : document.Lacks "$ref") :
    ∃ r, of? document = some r ∧ r.schema = tidyDocument document :=
  ⟨_, of?_unlinked (Expansion.unlinked_of_lacks hp),
    foldl_note_schema (Schema.objects (tidyDocument document))
      ⟨tidyDocument document, [], [], [], [], Graph.of document⟩⟩

end Resolved

end SchemaForm
