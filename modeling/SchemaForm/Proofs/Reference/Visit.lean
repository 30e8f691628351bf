/-
The steps of an expansion.

A *visit* is a value of the document that the expansion comes to, with its source
and its role.  From a visit steps lead down to the values within it, and from a
schema object with a reference one step jumps to what it names.  `Ends` follows
these steps with the sources of the open frames alone; whether an expansion
returns is a matter of them and not of the places it writes to (`expand_isSome`).
-/
import SchemaForm.Proofs.Json.Places
import SchemaForm.Proofs.Results
import SchemaForm.Reference.Expansion

namespace SchemaForm

namespace Expansion

open Schema (Role)

/-! ## Visits and steps -/

/-- A value that an expansion comes to. -/
structure Visit where
  source : String
  role : Role
  value : Json

namespace Visit

def itemsBelow (source : String) (items : List Json) : List Visit :=
  items.zipIdx.map fun (item, i) => ⟨Pointer.item source i, .schema, item⟩

def keywordBelow (source key : String) (value : Json) : List Visit :=
  match Role.ofKeyword? key, key, value with
  | none, _, _ => []
  | some _, "allOf", .arr items => itemsBelow (Pointer.child source key) items
  | some role, key, value => [⟨Pointer.child source key, role, value⟩]

theorem keywordBelow_allOf (source : String) (items : List Json) :
    keywordBelow source "allOf" (.arr items) = itemsBelow (Pointer.child source "allOf") items :=
  rfl

theorem keywordBelow_other {source key : String} {value : Json} {role : Role}
    (hr : Role.ofKeyword? key = some role)
    (hother : ∀ items, key = "allOf" → value = .arr items → False) :
    keywordBelow source key value = [⟨Pointer.child source key, role, value⟩] := by
  unfold keywordBelow
  split
  · next h => rw [hr] at h; cases h
  · next items h => exact (hother items rfl rfl).elim
  · next h => rw [hr] at h; cases h; rfl

theorem mem_keywordBelow {source key : String} {value : Json} {w : Visit}
    (h : w ∈ keywordBelow source key value) :
    (∃ items, value = .arr items ∧ w ∈ itemsBelow (Pointer.child source key) items) ∨
      (w.source = Pointer.child source key ∧ w.value = value) := by
  unfold keywordBelow at h
  split at h
  · exact absurd h List.not_mem_nil
  · exact .inl ⟨_, rfl, h⟩
  · rw [List.mem_singleton.mp h]
    exact .inr ⟨rfl, rfl⟩

/-- The values within a value that are expanded with it. -/
def below (v : Visit) : List Visit :=
  match v.role, v.value with
  | _, .arr items => itemsBelow v.source items
  | .map, .obj entries =>
      entries.map fun (name, value) => ⟨Pointer.child v.source name, .schema, value⟩
  | .schema, .obj members =>
      (members.filter fun member => !isLeftOut v.source member.1).flatMap fun (key, value) =>
        keywordBelow v.source key value
  | _, _ => []

/-- What the reference of a schema object names. -/
def jump? (root : Json) (v : Visit) : Option Visit :=
  match v.role, v.value with
  | .schema, .obj members =>
      (Schema.reference? members).bind fun reference =>
        (root.at? (Pointer.normalize reference)).map fun named =>
          ⟨Pointer.normalize reference, .schema, named⟩
  | _, _ => none

theorem jump?_of_reference {root : Json} {source reference : String} {members : Members}
    (h : Schema.reference? members = some reference) :
    jump? root ⟨source, .schema, .obj members⟩ =
      (root.at? (Pointer.normalize reference)).map fun named =>
        ⟨Pointer.normalize reference, .schema, named⟩ := by
  simp only [jump?, h, Option.bind_some]

/-- The sources of the open frames while the value itself is expanded. -/
def framesOver (above : List String) (v : Visit) : List String :=
  match v.role, v.value with
  | .schema, .obj _ => above ++ [v.source]
  | _, _ => above

end Visit

/-- One step of the expansion, stopped or not. -/
inductive Step (root : Json) : Visit → Visit → Prop
  | down {v w : Visit} : w ∈ v.below → Step root v w
  | jump {v w : Visit} : v.jump? root = some w → Step root v w

/-- One step that is never stopped. -/
inductive FreeStep (root : Json) (graph : Graph) : Visit → Visit → Prop
  | down {v w : Visit} : w ∈ v.below → FreeStep root graph v w
  | jump {v w : Visit} : v.jump? root = some w →
      ¬(graph.isRecursive v.source = true ∧ w.value.isObj = true) → FreeStep root graph v w

theorem FreeStep.step {root : Json} {graph : Graph} {v w : Visit} (h : FreeStep root graph v w) :
    Step root v w := by
  cases h with
  | down h => exact .down h
  | jump h _ => exact .jump h

/-- Whether an expansion that nests at most as deep as the number returns. -/
def Ends (root : Json) (graph : Graph) : Nat → List String → Visit → Prop
  | 0, _, _ => False
  | n + 1, above, v =>
      (∀ w ∈ v.below, Ends root graph n (v.framesOver above) w) ∧
        ∀ w, v.jump? root = some w →
          ¬(graph.isRecursive v.source = true ∧ w.source ∈ v.framesOver above) →
            Ends root graph n (v.framesOver above) w

section Returning

variable {root : Json} {graph : Graph}

theorem isSome_bind_of_forall {α β : Type} {x : Option α} {f : α → Option β}
    (h : ∀ a, (f a).isSome = true) : (x.bind f).isSome = true ↔ x.isSome = true := by
  cases x with
  | none => rfl
  | some a => exact iff_of_true (h a) rfl

variable {n : Nat} (ih : ∀ stack source place role value,
  (expand root graph n stack source place role value).isSome = true ↔
    Ends root graph n (stack.map Frame.source) ⟨source, role, value⟩)

include ih

theorem expandItems_isSome (stack : List Frame) (source : String) (place : Nat → String)
    (items : List Json) :
    (expandItems (expand root graph n) stack source place items).isSome = true ↔
      ∀ w ∈ Visit.itemsBelow source items, Ends root graph n (stack.map Frame.source) w := by
  simp only [expandItems, isSome_mapM, ih, Visit.itemsBelow, List.forall_mem_map]

theorem expandMap_isSome (stack : List Frame) (source place : String) (entries : Members) :
    (expandMap (expand root graph n) stack source place entries).isSome = true ↔
      ∀ entry ∈ entries, Ends root graph n (stack.map Frame.source)
        ⟨Pointer.child source entry.1, .schema, entry.2⟩ := by
  rw [expandMap, isSome_mapM]
  refine forall_congr' fun entry => imp_congr_right fun _ => ?_
  rw [← ih stack _ (Pointer.child place entry.1)]
  exact isSome_bind_of_forall fun _ => rfl

theorem expandKeyword_isSome (stack : List Frame) (source place key : String) (value : Json) :
    (expandKeyword (expand root graph n) stack source place key value).isSome = true ↔
      ∀ w ∈ Visit.keywordBelow source key value,
        Ends root graph n (stack.map Frame.source) w := by
  unfold expandKeyword
  split
  · next hr => simp [Visit.keywordBelow, hr]
  · rw [Option.isSome_map, expandItems_isSome ih, Visit.keywordBelow_allOf]
  · next hother hr => rw [ih, Visit.keywordBelow_other hr hother, List.forall_mem_singleton]

theorem expandMembers_isSome (stack : List Frame) (source place : String) (members : Members) :
    (expandMembers (expand root graph n) stack source place members).isSome = true ↔
      ∀ w ∈ Visit.below ⟨source, .schema, .obj members⟩,
        Ends root graph n (stack.map Frame.source) w := by
  have hentry : ∀ entry : String × Json, (do
      return (entry.1, ← expandKeyword (expand root graph n) stack source place entry.1 entry.2) :
        Option (String × Json)).isSome = true ↔
      ∀ w ∈ Visit.keywordBelow source entry.1 entry.2,
        Ends root graph n (stack.map Frame.source) w := by
    intro entry
    rw [← expandKeyword_isSome ih stack source place]
    cases expandKeyword (expand root graph n) stack source place entry.1 entry.2 <;> rfl
  rw [expandMembers, isSome_mapM, Visit.below, List.forall_mem_flatMap]
  exact forall_congr' fun entry => imp_congr_right fun _ => hentry entry

omit ih in
theorem openPlace?_isSome {stack : List Frame} {source target : String} :
    (openPlace? graph stack source target).isSome = true ↔
      graph.isRecursive source = true ∧ target ∈ stack.map Frame.source := by
  unfold openPlace?
  split
  · next h => simp [h, List.find?_isSome]
  · next h => simp [h]

theorem expandSchema_isSome (stack : List Frame) (source place : String) (members : Members) :
    (expandSchema root graph (expand root graph n) (stack ++ [⟨source, place⟩]) source place
        members).isSome = true ↔
      Ends root graph (n + 1) (stack.map Frame.source) ⟨source, .schema, .obj members⟩ := by
  have hframes : (stack ++ [(⟨source, place⟩ : Frame)]).map Frame.source =
      Visit.framesOver (stack.map Frame.source) ⟨source, .schema, .obj members⟩ := by
    rw [List.map_append]
    rfl
  rw [Ends, ← hframes, ← expandMembers_isSome ih _ _ place]
  unfold expandSchema
  generalize stack ++ [⟨source, place⟩] = stack'
  cases expandMembers (expand root graph n) stack' source place members with
  | none => simp
  | some expanded =>
      cases hr : Schema.reference? members with
      | none => simp [Visit.jump?, hr]
      | some reference =>
          rw [Visit.jump?_of_reference hr]
          simp only [Option.isSome_some, true_and, Option.map_eq_some_iff, Option.bind_eq_bind,
            Option.bind_some]
          cases hopen : openPlace? graph stack' source (Pointer.normalize reference) with
          | some copy =>
              have hstop : (openPlace? graph stack' source _).isSome = true :=
                Option.isSome_iff_exists.mpr ⟨copy, hopen⟩
              refine ⟨fun _ => ?_, fun _ => rfl⟩
              rintro w ⟨named, -, rfl⟩ hfree
              exact absurd (openPlace?_isSome.mp hstop) hfree
          | none =>
              have hfree : ¬(graph.isRecursive source = true ∧
                  Pointer.normalize reference ∈ stack'.map Frame.source) := by
                rw [← openPlace?_isSome, hopen]
                exact Bool.false_ne_true
              cases root.at? (Pointer.normalize reference) with
              | none =>
                  refine ⟨fun _ => ?_, fun _ => rfl⟩
                  rintro w ⟨named, h, -⟩
                  exact absurd h (Option.some_ne_none named).symm
              | some named =>
                  rw [isSome_bind_of_forall, ih]
                  · constructor
                    · rintro h w ⟨_, he, rfl⟩ -
                      exact Option.some.inj he ▸ h
                    · intro h
                      exact h _ ⟨named, rfl, rfl⟩ hfree
                  · intro inlined
                    split <;> rfl

end Returning

/-- An expansion returns when the visits it comes to end. -/
theorem expand_isSome {root : Json} {graph : Graph} {n : Nat} (stack : List Frame)
    (source place : String) (role : Role) (value : Json) :
    (expand root graph n stack source place role value).isSome = true ↔
      Ends root graph n (stack.map Frame.source) ⟨source, role, value⟩ := by
  induction n generalizing stack source place role value with
  | zero => simp [expand, Ends]
  | succ n ih =>
      cases value with
      | arr items =>
          have hitems := expandItems_isSome ih stack source (Pointer.item place) items
          cases role <;>
            simp [expand, Ends, Visit.below, Visit.jump?, Visit.framesOver, hitems]
      | obj entries =>
          cases role with
          | schema => exact expandSchema_isSome ih stack source place entries
          | map =>
              have hentries := expandMap_isSome ih stack source place entries
              simp only [expand, Option.isSome_map, hentries]
              refine ⟨fun h => ⟨List.forall_mem_map.mpr h, fun w hw => ?_⟩, fun h =>
                List.forall_mem_map.mp h.1⟩
              exact absurd hw (Option.some_ne_none w).symm
      | _ => cases role <;> simp [expand, Ends, Visit.below, Visit.jump?]

/-! ## Where visits stand -/

section Standing

variable {root : Json} {v w : Visit}

/-- The value of a visit is the one at its source. -/
def Visit.Stands (root : Json) (v : Visit) : Prop := root.Stands v.source v.value

theorem itemsBelow_stands {source : String} {items : List Json}
    (h : root.Stands source (.arr items)) (hw : w ∈ Visit.itemsBelow source items) :
    w.Stands root := by
  obtain ⟨⟨item, i⟩, hi, rfl⟩ := List.mem_map.mp hw
  exact h.item (List.mem_zipIdx_iff_getElem?.mp hi)

theorem keywordBelow_stands {source key : String} {value : Json}
    (h : root.Stands (Pointer.child source key) value)
    (hw : w ∈ Visit.keywordBelow source key value) : w.Stands root := by
  rcases Visit.mem_keywordBelow hw with ⟨items, rfl, hitem⟩ | ⟨hsource, hvalue⟩
  · exact itemsBelow_stands h hitem
  · rw [Visit.Stands, hsource, hvalue]
    exact h

theorem Step.stands (hroot : root.Distinct) (hv : v.Stands root) (h : Step root v w) :
    w.Stands root := by
  obtain ⟨source, role, value⟩ := v
  have hdistinct : value.Distinct := Json.Stands.distinct hroot hv
  cases h with
  | down h =>
      cases value with
      | arr items =>
          have hw : w ∈ Visit.itemsBelow source items := by cases role <;> exact h
          exact itemsBelow_stands hv hw
      | obj members =>
          cases role with
          | map =>
              obtain ⟨⟨name, value⟩, hm, rfl⟩ := List.mem_map.mp h
              exact Json.Stands.member hv hdistinct.1 hm
          | schema =>
              obtain ⟨⟨key, value⟩, hm, hw⟩ := List.mem_flatMap.mp h
              exact keywordBelow_stands
                (Json.Stands.member hv hdistinct.1 (List.mem_filter.mp hm).1) hw
      | _ => cases role <;> exact absurd h List.not_mem_nil
  | jump h =>
      unfold Visit.jump? at h
      split at h
      · obtain ⟨reference, -, h⟩ := Option.bind_eq_some_iff.mp h
        obtain ⟨named, hat, rfl⟩ := Option.map_eq_some_iff.mp h
        exact Json.Stands.of_at?_normalize hat
      · exact absurd h (Option.some_ne_none w).symm

theorem mem_framesOver {above : List String} {s : String} (h : s ∈ v.framesOver above) :
    s ∈ above ∨ ∃ members, v = ⟨s, .schema, .obj members⟩ := by
  obtain ⟨source, role, value⟩ := v
  unfold Visit.framesOver at h
  split at h
  · next members hrole hvalue =>
      cases List.mem_append.mp h with
      | inl h => exact .inl h
      | inr h =>
          obtain rfl := List.mem_singleton.mp h
          cases hrole
          cases hvalue
          exact .inr ⟨members, rfl⟩
  · exact .inl h

theorem subset_framesOver (above : List String) (v : Visit) : above ⊆ v.framesOver above := by
  unfold Visit.framesOver
  split
  · exact List.subset_append_left _ _
  · exact List.Subset.refl _

theorem jump?_role (h : v.jump? root = some w) : w.role = .schema := by
  unfold Visit.jump? at h
  split at h
  · obtain ⟨reference, -, h⟩ := Option.bind_eq_some_iff.mp h
    obtain ⟨named, -, rfl⟩ := Option.map_eq_some_iff.mp h
    rfl
  · exact absurd h (Option.some_ne_none w).symm

theorem itemsBelow_within {source : String} {items : List Json}
    (hw : w ∈ Visit.itemsBelow source items) :
    Pointer.covers source w.source = true ∧ w.value.size < 1 + Json.sizeItems items := by
  obtain ⟨⟨item, i⟩, hi, rfl⟩ := List.mem_map.mp hw
  have hle : item.size ≤ Json.sizeItems items :=
    Json.size_le_of_mem (List.mem_of_getElem? (List.mem_zipIdx_iff_getElem?.mp hi))
  exact ⟨Pointer.covers_item source i, show item.size < _ by omega⟩

/-- What is expanded with a value stands below it and is smaller. -/
theorem below_within (h : w ∈ v.below) :
    Pointer.covers v.source w.source = true ∧ w.value.size < v.value.size := by
  obtain ⟨source, role, value⟩ := v
  cases value with
  | arr items =>
      have hw : w ∈ Visit.itemsBelow source items := by cases role <;> exact h
      exact itemsBelow_within hw
  | obj members =>
      cases role with
      | map =>
          obtain ⟨⟨name, value⟩, hm, rfl⟩ := List.mem_map.mp h
          have hle := Json.size_le_of_member hm
          exact ⟨Pointer.covers_child source name, by simp only [Json.size]; omega⟩
      | schema =>
          obtain ⟨⟨key, value⟩, hm, hw⟩ := List.mem_flatMap.mp h
          have hle := Json.size_le_of_member (List.mem_filter.mp hm).1
          have hchild := Pointer.covers_child source key
          rw [show Json.size (.obj members) = 1 + Json.sizeMembers members from rfl]
          rcases Visit.mem_keywordBelow hw with ⟨items, rfl, hitem⟩ | ⟨hsource, rfl⟩
          · obtain ⟨hcovers, hsize⟩ := itemsBelow_within hitem
            rw [show Json.size (.arr items) = 1 + Json.sizeItems items from rfl] at hle
            exact ⟨Pointer.covers_trans hchild hcovers, by omega⟩
          · exact ⟨hsource ▸ hchild, by omega⟩
  | _ => cases role <;> exact absurd h List.not_mem_nil

end Standing

end Expansion

end SchemaForm
