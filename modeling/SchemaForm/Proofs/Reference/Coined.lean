/-
References that an expansion leaves, of any document.

When a schema is expanded, a pointer text is left under `$ref` for one of two reasons.  It was
written there for the copy of a target that is being expanded further up, or it is *coined*:
the document has an object under `$ref`, that object is expanded like a sub-schema, and a text
comes out (`\x7b"$ref": \x7b"allOf": ["#/b"]}}`).  So when both kinds are allowed (`Granted`), the
expanded schema is aimed (`aims`).  The induction is on the depth of the expansion, for the frames
and the place together: the frames land at or above the place (`Sited`).
-/
import SchemaForm.Proofs.Reference.Rules
import SchemaForm.Proofs.Schema.Projection

namespace SchemaForm

namespace Expansion

open Schema (Role Aim Aimed AimedMember placeBelow keywordPlace isFollowed Schematic)

/-- An object under the `$ref` of a schema object that the expansion comes to is expanded to the
text. -/
def Coined (root : Json) (graph : Graph) (text : String) : Prop :=
  ∃ source members inner n stack place,
    Reached root ⟨source, .schema, .obj members⟩ ∧ ("$ref", .obj inner) ∈ members ∧
      expand root graph n stack (Pointer.child source "$ref") place .schema (.obj inner) =
        some (.str text)

/-- The segments of the place where a value lands, if its place is followed; a keyword follows
it, or any name. -/
def Follows (p : Option (List String)) (B : List String) (role : Role) : Prop :=
  ∀ q, p = some q → q = B ∧
    match role with
    | .schema => Schematic B
    | .map => ∀ name, Schematic (B ++ [name])

/-- What an expansion needs of the texts that are allowed. -/
structure Granted (root : Json) (graph : Graph) (A : Aim) : Prop where
  coined : ∀ {p : Option (List String)} {text : String}, Coined root graph text → A.allows p text
  copy : ∀ {p : Option (List String)} {stack : List Frame} {B : List String}
    {source target copy : String}, (∀ q, p = some q → q = B) → Sited stack B →
    openPlace? graph stack source target = some copy → A.allows p ("#" ++ copy)
  /-- A list that an object under `allOf` is expanded to is merged into the schema around. -/
  raise : ∀ {B below rest : List String} {text : String}, Schematic B →
    A.allows (some (B ++ "allOf" :: below)) text → A.allows (some (B ++ rest)) text

section Following

variable {p : Option (List String)} {B : List String} {role : Role} {key : String}

theorem Follows.eq (h : Follows p B role) : ∀ q, p = some q → q = B := fun q hq => (h q hq).1

theorem follows_none (B : List String) (role : Role) : Follows none B role :=
  fun _ hq => absurd hq.symm (Option.some_ne_none _)

theorem Follows.item (h : Follows p B role) (i : Nat) :
    Follows (placeBelow p (Nat.repr i)) (B ++ [Nat.repr i]) .schema := by
  intro q hq
  obtain ⟨here, hhere, rfl⟩ := Option.map_eq_some_iff.mp hq
  obtain ⟨rfl, hB⟩ := h here hhere
  refine ⟨rfl, ?_⟩
  cases role with
  | schema => exact Schematic.concat hB (Schema.repr_ne_properties i)
  | map => exact hB _

theorem Follows.entry (h : Follows p B .map) (name : String) :
    Follows (placeBelow p name) (B ++ [name]) .schema := by
  intro q hq
  obtain ⟨here, hhere, rfl⟩ := Option.map_eq_some_iff.mp hq
  obtain ⟨rfl, hB⟩ := h here hhere
  exact ⟨rfl, hB name⟩

theorem Follows.below (h : Follows p B .schema) (hr : Role.ofKeyword? key = some role)
    (hmap : role = .map → key = "properties") : Follows (placeBelow p key) (B ++ [key]) role := by
  intro q hq
  obtain ⟨here, hhere, rfl⟩ := Option.map_eq_some_iff.mp hq
  obtain ⟨rfl, hB⟩ := h here hhere
  refine ⟨rfl, ?_⟩
  cases role with
  | schema =>
      refine Schematic.concat hB ?_
      rintro rfl
      cases hr
  | map =>
      obtain rfl := hmap rfl
      intro name
      rw [List.append_assoc]
      exact Schematic.named hB name

theorem mapKeyword_of_role (h : Role.ofKeyword? key = some .map) :
    key = "properties" ∨ isFollowed key = false := by
  have hmem : key ∈ Schema.mapKeywords := by
    simp only [Role.ofKeyword?] at h
    split at h
    · cases h
    · split at h
      · next hmap => exact List.contains_iff_mem.mp hmap
      · cases h
  simp only [Schema.mapKeywords, List.mem_cons, List.not_mem_nil, or_false] at hmem
  rcases hmem with rfl | rfl | rfl | rfl | rfl <;> decide

theorem Follows.keyword (h : Follows p B .schema) (hr : Role.ofKeyword? key = some role) :
    Follows (keywordPlace p key) (B ++ [key]) role := by
  cases hfollowed : isFollowed key with
  | false =>
      rw [Schema.keywordPlace_of_not_followed p hfollowed]
      exact follows_none _ _
  | true =>
      rw [keywordPlace, if_pos hfollowed]
      refine h.below hr ?_
      rintro rfl
      rcases mapKeyword_of_role hr with hkey | hkey
      · exact hkey
      · exact absurd (hkey.symm.trans hfollowed) Bool.false_ne_true

end Following

section Aiming

variable {root : Json} {graph : Graph} {A : Aim} {stack : List Frame} {B : List String}
  {source key : String} {role : Role} {value made : Json} {members : Members}
  {p : Option (List String)}

/-- Expansions no deeper than the number leave references that are allowed. -/
def Aims (root : Json) (graph : Graph) (A : Aim) (n : Nat) : Prop :=
  ∀ {stack : List Frame} {B : List String} {source : String} {role : Role} {value made : Json}
    {p : Option (List String)}, Reached root ⟨source, role, value⟩ → Sited stack B →
    Follows p B role → expand root graph n stack source (Pointer.ofSegments B) role value =
      some made → Aimed A p role made

theorem finish_aimed {v : Json} (h : Aimed A p .schema v) : Aimed A p .schema (finish v) :=
  Schema.moveRequired_aimed (Schema.collapseAllOf_aimed h)

/-- A list under `allOf` is at the place of the schema, wherever its items were expanded. -/
theorem parts_raised (hA : Granted root graph A) {items : List Json}
    (hfollows : Follows p B .schema) (h : Aimed A (placeBelow p "allOf") .schema (.arr items)) :
    ∀ x ∈ items, Aimed A p .schema x := by
  intro x hx
  obtain ⟨i, hi⟩ := List.mem_iff_getElem?.mp hx
  have hx' := Schema.aimed_list.mp h i x hi
  cases p with
  | none => exact hx'
  | some q =>
      obtain ⟨rfl, hB⟩ := hfollows q rfl
      refine Schema.Aimed.moved hx' fun rest text ht => ?_
      rw [List.append_assoc, List.append_assoc] at ht
      exact hA.raise hB ht

variable {n : Nat} (ih : Aims root graph A n)

include ih

theorem expandItems_aims {items more : List Json} {place : Nat → String} {C : Nat → List String}
    {q : Nat → Option (List String)} (hplace : ∀ i, place i = Pointer.ofSegments (C i))
    (hs : ∀ i, Sited stack (C i)) (hq : ∀ i, Follows (q i) (C i) .schema)
    (hreach : ∀ w ∈ Visit.itemsBelow source items, Reached root w)
    (h : expandItems (expand root graph n) stack source place items = some more) {i : Nat}
    {x : Json} (hx : more[i]? = some x) : Aimed A (q i) .schema x := by
  obtain ⟨⟨item, j⟩, hj, hexp⟩ := mapM_getElem? h hx
  obtain ⟨hitem, rfl⟩ : items[i]? = some item ∧ j = i := by
    rw [List.getElem?_zipIdx] at hj
    obtain ⟨item', hitem, he⟩ := Option.map_eq_some_iff.mp hj
    obtain ⟨rfl, rfl⟩ := Prod.mk.inj he
    exact ⟨hitem, by omega⟩
  have hmem : (⟨Pointer.item source j, .schema, item⟩ : Visit) ∈ Visit.itemsBelow source items :=
    List.mem_map.mpr ⟨(item, j), List.mem_zipIdx_iff_getElem?.mpr hitem, rfl⟩
  have hmade : expand root graph n stack (Pointer.item source j) (place j) .schema item = some x :=
    hexp
  rw [hplace] at hmade
  exact ih (hreach _ hmem) (hs j) (hq j) hmade

/-- The value of a keyword of a schema object is aimed, a pointer text under `$ref` apart. -/
theorem expandKeyword_aims (hA : Granted root graph A) {w : Json}
    (hreach : Reached root ⟨source, .schema, .obj members⟩) (hs : Sited stack B)
    (hfollows : Follows p B .schema) (hm : (key, w) ∈ members)
    (hleft : isLeftOut source key = false)
    (href : key = "$ref" → ∀ text, w = .str text → Pointer.isPointer text = false)
    (h : expandKeyword (expand root graph n) stack source (Pointer.ofSegments B) key w =
      some made) : AimedMember A p key made := by
  have hbelow : ∀ {v}, v ∈ Visit.keywordBelow source key w → Reached root v := by
    intro v hv
    refine hreach.tail (.down (List.mem_flatMap.mpr ⟨(key, w), ?_, hv⟩))
    exact List.mem_filter.mpr ⟨hm, by rw [hleft]; rfl⟩
  rcases expandKeyword_cases h with ⟨hr, -⟩ | ⟨items, more, rfl, rfl, rfl, hmore⟩ |
      ⟨role, hr, hother, h⟩
  · exact Schema.aimedMember_data hr
  · refine Schema.aimedMember_parts fun x hx => ?_
    obtain ⟨i, hi⟩ := List.mem_iff_getElem?.mp hx
    exact expandItems_aims ih (q := fun _ => p) (fun _ => rfl) (fun _ => hs) (fun _ => hfollows)
      (fun v hv => hbelow hv) hmore hi
  · have hvisit : (⟨Pointer.child source key, role, w⟩ : Visit) ∈
        Visit.keywordBelow source key w := by
      rw [Visit.keywordBelow_other hr hother]
      exact List.mem_singleton.mpr rfl
    have hexpanded := h
    rw [Pointer.child_ofSegments] at hexpanded
    refine ⟨?_, ?_, ?_⟩
    · rintro rfl text rfl hpointer
      obtain rfl : role = .schema := Option.some.inj (hr.symm.trans rfl)
      refine hA.coined ?_
      cases w with
      | obj inner =>
          exact ⟨source, members, inner, n, stack, _, hreach, hm, h⟩
      | arr items =>
          obtain ⟨more, hmore⟩ := expand_list h
          cases hmore
      | _ =>
          have hsame := expand_scalar rfl rfl h
          rw [href rfl text hsame.symm] at hpointer
          exact absurd hpointer Bool.false_ne_true
    · rintro rfl items rfl
      obtain rfl : role = .schema := Option.some.inj (hr.symm.trans rfl)
      refine parts_raised hA hfollows (ih (hbelow hvisit) (hs.below "allOf") ?_ hexpanded)
      exact hfollows.below hr Role.noConfusion
    · intro role' hr' _
      obtain rfl : role = role' := Option.some.inj (hr.symm.trans hr')
      exact ih (hbelow hvisit) (hs.below key) (hfollows.keyword hr) hexpanded

theorem expandMembers_aims (hA : Granted root graph A) {expanded : Members}
    (hreach : Reached root ⟨source, .schema, .obj members⟩) (hn : (Table.names members).Nodup)
    (hs : Sited stack B) (hfollows : Follows p B .schema)
    (h : expandMembers (expand root graph n) stack source (Pointer.ofSegments B) members =
      some expanded) :
    (Table.names expanded).Nodup ∧ ∀ key made, (key, made) ∈ expanded →
      (key = "$ref" → Schema.reference? members = none) → AimedMember A p key made := by
  obtain ⟨hnames, hentries⟩ := mapM_entries h
  constructor
  · rw [hnames]
    exact hn.sublist (List.Sublist.map _ List.filter_sublist)
  · intro key made hm hkey
    obtain ⟨w, hw, hmade⟩ := hentries key made hm
    obtain ⟨hw, hleft⟩ := List.mem_filter.mp hw
    refine expandKeyword_aims ih hA hreach hs hfollows hw (by simpa using hleft) ?_ hmade
    rintro rfl text rfl
    have hnone := hkey rfl
    rw [Schema.reference?, Table.get?_of_mem hn hw] at hnone
    simpa using Option.filter_eq_none_iff.mp hnone text rfl

theorem expandSchema_aims (hroot : root.Distinct) (hA : Granted root graph A)
    (hreach : Reached root ⟨source, .schema, .obj members⟩) (hs : Sited stack B)
    (hfollows : Follows p B .schema)
    (h : expandSchema root graph (expand root graph n)
      (stack ++ [⟨source, Pointer.ofSegments B⟩]) source (Pointer.ofSegments B) members =
        some made) : Aimed A p .schema made := by
  have hn : (Table.names members).Nodup :=
    (Json.Stands.distinct hroot (reached_stands hroot hreach)).1
  obtain ⟨expanded, hexpanded, h⟩ := Option.bind_eq_some_iff.mp h
  obtain ⟨hnames, haimed⟩ := expandMembers_aims ih hA hreach hn (hs.push source) hfollows hexpanded
  have hbeside : Aimed A p .schema (.obj (Table.swapErase expanded "$ref")) := by
    refine Schema.aimed_schema.mpr fun key v hm => ?_
    refine haimed key v (Table.mem_swapErase hm) ?_
    rintro rfl
    exact absurd hm (Table.not_mem_swapErase hnames)
  split at h
  · next hnone =>
      obtain rfl := Option.some.inj h
      exact finish_aimed (Schema.aimed_schema.mpr fun key v hm => haimed key v hm fun _ => hnone)
  · next reference hreference =>
      dsimp only at h
      split at h
      · next copy hcopy =>
          obtain rfl := Option.some.inj h
          refine finish_aimed (Schema.aimed_insert hbeside ⟨?_, ?_, ?_⟩)
          · rintro - text ⟨⟩ -
            exact hA.copy hfollows.eq (hs.push source) hcopy
          · intro hkey
            exact absurd hkey (by decide)
          · intro _ _ _
            exact .scalar rfl rfl
      · split at h
        · obtain rfl := Option.some.inj h
          exact finish_aimed hbeside
        · next named hnamed =>
            obtain ⟨inlined, hinlined, h⟩ := Option.bind_eq_some_iff.mp h
            have hjump : Visit.jump? root ⟨source, .schema, .obj members⟩ =
                some ⟨Pointer.normalize reference, .schema, named⟩ := by
              rw [Visit.jump?_of_reference hreference, hnamed]
              rfl
            have hinl := ih (hreach.tail (.jump hjump)) (hs.push source) hfollows hinlined
            split at h
            · obtain rfl := Option.some.inj h
              exact finish_aimed hinl
            · obtain rfl := Option.some.inj h
              refine finish_aimed (Schema.mergeAll_aimed fun x hx => ?_)
              rcases List.mem_cons.mp hx with rfl | hx
              · exact hbeside
              · exact List.mem_singleton.mp hx ▸ hinl

omit ih in
/-- An expansion leaves references that are allowed. -/
theorem aims (hroot : root.Distinct) (hA : Granted root graph A) (n : Nat) :
    Aims root graph A n := by
  induction n with
  | zero =>
      intro stack B source role value made p hreach hs hfollows h
      cases h
  | succ n ih =>
      intro stack B source role value made p hreach hs hfollows h
      cases value with
      | arr items =>
          have hitems : (expandItems (expand root graph n) stack source
              (Pointer.item (Pointer.ofSegments B)) items).map .arr = some made := by
            cases role <;> exact h
          have hbelow : ∀ w ∈ Visit.itemsBelow source items, Reached root w := by
            intro w hw
            refine hreach.tail (.down ?_)
            cases role <;> exact hw
          obtain ⟨more, hmore, rfl⟩ := Option.map_eq_some_iff.mp hitems
          refine .list fun i x hx => ?_
          exact expandItems_aims ih (q := fun i => placeBelow p (Nat.repr i))
            (Pointer.item_ofSegments B) (fun i => hs.below (Nat.repr i)) hfollows.item hbelow hmore
            hx
      | obj entries =>
          cases role with
          | schema => exact expandSchema_aims ih hroot hA hreach hs hfollows h
          | map =>
              obtain ⟨more, hmore, rfl⟩ := Option.map_eq_some_iff.mp h
              obtain ⟨-, hentries⟩ := mapM_entries (f := fun name w =>
                expand root graph n stack (Pointer.child source name)
                  (Pointer.child (Pointer.ofSegments B) name) .schema w) hmore
              refine .map fun name made hm => ?_
              obtain ⟨w, hw, hmade⟩ := hentries name made hm
              have hvisit : (⟨Pointer.child source name, .schema, w⟩ : Visit) ∈
                  Visit.below ⟨source, .map, .obj entries⟩ :=
                List.mem_map.mpr ⟨(name, w), hw, rfl⟩
              rw [Pointer.child_ofSegments] at hmade
              exact ih (hreach.tail (.down hvisit)) (hs.below name) (hfollows.entry name) hmade
      | _ =>
          obtain rfl := expand_scalar rfl rfl h
          exact .scalar rfl rfl

end Aiming

end Expansion

end SchemaForm
