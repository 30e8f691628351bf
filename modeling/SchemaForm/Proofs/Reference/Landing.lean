/-
Where surviving references lead.

A reference is left in an expanded schema when its target is being expanded
further up, and it is written with the place of that object.  The place is above
the one where the reference stands, and stays so as long as nothing moves; the
merging of schemas can move what it puts into the lists of `listKeywords`.  For
documents of the shape of schemas (`Regular`) that is the only way to go wrong:

    the target is there and holds the reference  ↔  ¬Strayed place reference

(`Resolved.references_land`).
-/
import SchemaForm.Proofs.Reference.Merging
import SchemaForm.Proofs.Reference.Termination
import SchemaForm.Proofs.Results

namespace SchemaForm

/-- The entries of a table with their values replaced, where every value has a result. -/
theorem mapM_entries {f : String → Json → Option Json} {entries more : Members}
    (h : (entries.mapM fun (name, w) => do return (name, ← f name w)) = some more) :
    Table.names more = Table.names entries ∧
      ∀ name made, (name, made) ∈ more → ∃ w, (name, w) ∈ entries ∧ f name w = some made := by
  have hentry : ∀ entry made : String × Json,
      (do return (entry.1, ← f entry.1 entry.2) : Option (String × Json)) = some made →
        made.1 = entry.1 ∧ f entry.1 entry.2 = some made.2 := by
    intro entry made he
    obtain ⟨value, hvalue, he⟩ := Option.bind_eq_some_iff.mp he
    obtain rfl := Option.some.inj he
    exact ⟨rfl, hvalue⟩
  refine ⟨map_of_mapM h fun entry made he => (hentry entry made he).1, fun name made hm => ?_⟩
  obtain ⟨⟨other, w⟩, hw, he⟩ := mapM_mem h hm
  obtain ⟨hname, hmade⟩ := hentry (other, w) (name, made) he
  obtain rfl : name = other := hname
  exact ⟨w, hw, hmade⟩

namespace Expansion

open Schema (Role Anchored Settled Held Places Plain listKeywords plain_of_arr?)
open Relation

/-! ## Documents of the shape of schemas -/

/-- No keyword of a schema is a numeral, `allOf` and `$ref` hold no objects, and a list
within a list or a map has scalars only. -/
def Visit.Regular (v : Visit) : Prop :=
  match v.role, v.value with
  | _, .arr items => ∀ x ∈ items, Plain x
  | .map, .obj entries => ∀ name w, (name, w) ∈ entries → Plain w
  | .schema, .obj members =>
      (∀ key w, (key, w) ∈ members → Pointer.position? key = none) ∧
      (∀ w, ("allOf", w) ∈ members ∨ ("$ref", w) ∈ members → w.obj? = none) ∧
      (∀ items, ("allOf", .arr items) ∈ members → ∀ x ∈ items, Plain x)
  | _, _ => True

/-- The expansion of a document comes to a value. -/
def Reached (document : Json) (v : Visit) : Prop :=
  ReflTransGen (Step document) ⟨"", .schema, document⟩ v

/-- Every value that the expansion comes to has the shape of a schema, and a
reference names no list but of scalars. -/
def Regular (document : Json) : Prop :=
  ∀ v, Reached document v → v.Regular ∧ ∀ w, v.jump? document = some w → Plain w.value

/-- Visits that are closed under steps are all that the expansion can come to. -/
theorem regular_of_closed {document : Json} (visits : List Visit)
    (hroot : ⟨"", .schema, document⟩ ∈ visits)
    (hbelow : ∀ v ∈ visits, ∀ w ∈ v.below, w ∈ visits)
    (hjump : ∀ v ∈ visits, ∀ w, v.jump? document = some w → w ∈ visits ∧ Plain w.value)
    (hregular : ∀ v ∈ visits, v.Regular) : Regular document := by
  have hmem : ∀ v, Reached document v → v ∈ visits := by
    intro v hv
    induction hv with
    | refl => exact hroot
    | tail _ hstep ih =>
        cases hstep with
        | down hw => exact hbelow _ ih _ hw
        | jump hj => exact (hjump _ ih _ hj).1
  intro v hv
  exact ⟨hregular v (hmem v hv), fun w hw => (hjump v (hmem v hv) w hw).2⟩

section Expanding

variable {root : Json} {graph : Graph} {stack : List Frame} {B : List String}
  {source place key : String} {role : Role} {value made : Json} {members : Members}

/-- The frames land at or above a place. -/
def Sited (stack : List Frame) (B : List String) : Prop :=
  ∀ frame ∈ stack, ∃ t, frame.place = Pointer.ofSegments t ∧ t <+: B

theorem Sited.below (h : Sited stack B) (segment : String) : Sited stack (B ++ [segment]) := by
  intro frame hf
  obtain ⟨t, ht, hp⟩ := h frame hf
  exact ⟨t, ht, hp.trans (List.prefix_append _ _)⟩

theorem Sited.push (h : Sited stack B) (source : String) :
    Sited (stack ++ [⟨source, Pointer.ofSegments B⟩]) B := by
  intro frame hf
  cases List.mem_append.mp hf with
  | inl hf => exact h frame hf
  | inr hf =>
      rw [List.mem_singleton.mp hf]
      exact ⟨B, rfl, List.prefix_refl B⟩

theorem below_single {segment : String} :
    ∀ q, q = B ++ [segment] → Places.below (· = B) segment q :=
  fun _ hq => ⟨B, rfl, hq⟩

/-- Expansions no deeper than the number anchor references where they land. -/
def Lands (root : Json) (graph : Graph) (n : Nat) : Prop :=
  ∀ {stack : List Frame} {B : List String} {source : String} {role : Role} {value made : Json},
    Reached root ⟨source, role, value⟩ → Sited stack B →
      expand root graph n stack source (Pointer.ofSegments B) role value = some made →
        Anchored (· = B) role made ∧ (Plain value → Plain made)

theorem expand_scalar {n : Nat} (harr : value.arr? = none) (hobj : value.obj? = none)
    (h : expand root graph n stack source place role value = some made) : made = value := by
  cases n with
  | zero => cases h
  | succ n =>
      cases value with
      | arr items => cases harr
      | obj members => cases hobj
      | _ => cases role <;> exact (Option.some.inj h).symm

theorem expand_list {n : Nat} {items : List Json}
    (h : expand root graph n stack source place role (.arr items) = some made) :
    ∃ more, made = .arr more := by
  cases n with
  | zero => cases h
  | succ n =>
      have hlist : (expandItems (expand root graph n) stack source (Pointer.item place) items).map
          .arr = some made := by
        cases role <;> exact h
      obtain ⟨more, -, rfl⟩ := Option.map_eq_some_iff.mp hlist
      exact ⟨more, rfl⟩

/-- A value that is no object is expanded to itself, or a list to a list. -/
theorem expand_kept {n : Nat} (hobj : value.obj? = none)
    (h : expand root graph n stack source place role value = some made) :
    made = value ∨ ∃ items more, value = .arr items ∧ made = .arr more := by
  cases value with
  | arr items =>
      obtain ⟨more, rfl⟩ := expand_list h
      exact .inr ⟨items, more, rfl, rfl⟩
  | _ => exact .inl (expand_scalar rfl hobj h)

theorem expandKeyword_cases {expand : Expand} {w : Json}
    (h : expandKeyword expand stack source place key w = some made) :
    (Role.ofKeyword? key = none ∧ made = w) ∨
    (∃ items more, key = "allOf" ∧ w = .arr items ∧ made = .arr more ∧
      expandItems expand stack (Pointer.child source key) (fun _ => place) items = some more) ∨
    ∃ role, Role.ofKeyword? key = some role ∧ (∀ items, key = "allOf" → w ≠ .arr items) ∧
      expand stack (Pointer.child source key) (Pointer.child place key) role w = some made := by
  unfold expandKeyword at h
  split at h
  · next hr => exact .inl ⟨hr, (Option.some.inj h).symm⟩
  · obtain ⟨more, hmore, rfl⟩ := Option.map_eq_some_iff.mp h
    exact .inr (.inl ⟨_, more, rfl, rfl, rfl, hmore⟩)
  · next hother hr => exact .inr (.inr ⟨_, hr, hother, h⟩)

theorem finish_settled {P : Places} {v : Json} (h : Settled P v) : Settled P (finish v) :=
  Schema.moveRequired_settled (Schema.collapseAllOf_settled h)

theorem reached_stands (hroot : root.Distinct) {v : Visit} (h : Reached root v) :
    v.Stands root := by
  induction h with
  | refl => exact Json.Stands.root root
  | tail _ hstep ih => exact hstep.stands hroot ih

theorem openPlace?_mem {target copy : String}
    (h : openPlace? graph stack source target = some copy) :
    ∃ frame ∈ stack, frame.place = copy := by
  unfold openPlace? at h
  split at h
  · obtain ⟨frame, hfind, rfl⟩ := Option.map_eq_some_iff.mp h
    exact ⟨frame, List.mem_of_find?_eq_some hfind, rfl⟩
  · exact absurd h (Option.some_ne_none copy).symm

theorem held_copy {copy : String} (h : ∃ frame ∈ stack, frame.place = copy)
    (hs : Sited stack B) : Held (· = B) "$ref" (.str ("#" ++ copy)) := by
  obtain ⟨frame, hf, rfl⟩ := h
  obtain ⟨t, ht, hp⟩ := hs frame hf
  refine ⟨rfl, fun _ => rfl, ?_, fun hk => absurd hk (by decide), fun _ _ _ => .scalar rfl rfl⟩
  rintro - target ⟨⟩ -
  exact ⟨B, t, rfl, hp, by rw [ht]⟩

/-- The value of a keyword that landed below the schema around it. -/
theorem held_landed (hp : Pointer.position? key = none) (hr : Role.ofKeyword? key = some role)
    (h : Anchored (· = B ++ [key]) role made)
    (hall : key = "allOf" → made.arr? = none ∧ made.obj? = none)
    (href : key = "$ref" → ∀ target, made = .str target → Pointer.isPointer target = false) :
    Held (· = B) key made := by
  refine ⟨hp, fun hk => (hall hk).2, ?_, ?_, ?_⟩
  · intro hk target hmade hpointer
    rw [href hk target hmade] at hpointer
    exact absurd hpointer Bool.false_ne_true
  · intro hk items hmade x hx
    subst hmade
    obtain ⟨i, hi⟩ := List.mem_iff_getElem?.mp hx
    cases h with
    | list hlists hitems =>
        have hne : key ≠ "allOf" := fun hk => Option.some_ne_none items (hall hk).1
        refine ⟨(hitems i x hi).mono ?_, hlists x hx⟩
        intro q hq
        rw [Places.spread, if_neg hne]
        exact .inr ⟨i, Places.below_mono below_single _ q hq⟩
    | scalar harr => cases harr
  · intro role' hr' _
    obtain rfl : role = role' := Option.some.inj (hr.symm.trans hr')
    exact h.mono below_single

variable {n : Nat} (ih : Lands root graph n)

include ih

theorem expandItems_lands {items more : List Json} {place : Nat → String} {C : Nat → List String}
    (hplace : ∀ i, place i = Pointer.ofSegments (C i)) (hs : ∀ i, Sited stack (C i))
    (hreach : ∀ w ∈ Visit.itemsBelow source items, Reached root w)
    (hlists : ∀ x ∈ items, Plain x)
    (h : expandItems (expand root graph n) stack source place items = some more) {i : Nat}
    {x : Json} (hx : more[i]? = some x) : Settled (· = C i) x := by
  obtain ⟨⟨item, j⟩, hj, hexp⟩ := mapM_getElem? h hx
  obtain ⟨hitem, rfl⟩ : items[i]? = some item ∧ j = i := by
    rw [List.getElem?_zipIdx] at hj
    obtain ⟨item', hitem, he⟩ := Option.map_eq_some_iff.mp hj
    obtain ⟨rfl, rfl⟩ := Prod.mk.inj he
    exact ⟨hitem, by omega⟩
  have hmem : (⟨Pointer.item source j, .schema, item⟩ : Visit) ∈ Visit.itemsBelow source items :=
    List.mem_map.mpr ⟨(item, j), List.mem_zipIdx_iff_getElem?.mpr hitem, rfl⟩
  have hmade : expand root graph n stack (Pointer.item source j) (place j) .schema item = some x :=
    hexp
  rw [hplace] at hmade
  obtain ⟨hanchored, hlist⟩ := ih (hreach _ hmem) (hs j) hmade
  exact ⟨hanchored, hlist (hlists item (List.mem_of_getElem? hitem))⟩

theorem expandKeyword_held {w : Json} (hreach : Reached root ⟨source, .schema, .obj members⟩)
    (hregular : Visit.Regular ⟨source, .schema, .obj members⟩) (hs : Sited stack B)
    (hm : (key, w) ∈ members) (hleft : isLeftOut source key = false)
    (href : key = "$ref" → ∀ target, w = .str target → Pointer.isPointer target = false)
    (h : expandKeyword (expand root graph n) stack source (Pointer.ofSegments B) key w =
      some made) : Held (· = B) key made := by
  obtain ⟨hkeys, hobjs, hall⟩ := hregular
  have hplain := hkeys key w hm
  have hbelow : ∀ {v}, v ∈ Visit.keywordBelow source key w → Reached root v := by
    intro v hv
    refine hreach.tail (.down (List.mem_flatMap.mpr ⟨(key, w), ?_, hv⟩))
    exact List.mem_filter.mpr ⟨hm, by rw [hleft]; rfl⟩
  rcases expandKeyword_cases h with ⟨hr, -⟩ | ⟨items, more, rfl, rfl, rfl, hmore⟩ |
      ⟨role, hr, hother, h⟩
  · exact Schema.held_data hplain hr
  · refine Schema.held_list hplain (by decide) ?_
    intro x hx
    obtain ⟨i, hi⟩ := List.mem_iff_getElem?.mp hx
    exact expandItems_lands ih (fun _ => rfl) (fun _ => hs) (fun v hv => hbelow hv)
      (hall items hm) hmore hi
  · rw [Pointer.child_ofSegments] at h
    have hvisit : (⟨Pointer.child source key, role, w⟩ : Visit) ∈
        Visit.keywordBelow source key w := by
      rw [Visit.keywordBelow_other hr hother]
      exact List.mem_singleton.mpr rfl
    obtain ⟨hanchored, -⟩ := ih (hbelow hvisit) (hs.below key) h
    refine held_landed hplain hr hanchored ?_ ?_
    · rintro rfl
      rcases expand_kept (hobjs w (.inl hm)) h with rfl | ⟨items, _, hw, -⟩
      · refine ⟨?_, hobjs made (.inl hm)⟩
        cases made with
        | arr items => exact absurd rfl (hother items rfl)
        | _ => rfl
      · exact absurd hw (hother items rfl)
    · rintro rfl target rfl
      rcases expand_kept (hobjs w (.inr hm)) h with hw | ⟨_, _, -, hmade⟩
      · exact href rfl target hw.symm
      · cases hmade

theorem expandMembers_held {expanded : Members}
    (hreach : Reached root ⟨source, .schema, .obj members⟩)
    (hregular : Visit.Regular ⟨source, .schema, .obj members⟩)
    (hn : (Table.names members).Nodup) (hs : Sited stack B)
    (h : expandMembers (expand root graph n) stack source (Pointer.ofSegments B) members =
      some expanded) :
    (Table.names expanded).Nodup ∧ ∀ key made, (key, made) ∈ expanded →
      (key = "$ref" → Schema.reference? members = none) → Held (· = B) key made := by
  obtain ⟨hnames, hentries⟩ := mapM_entries h
  constructor
  · rw [hnames]
    exact hn.sublist (List.Sublist.map _ List.filter_sublist)
  · intro key made hm hkey
    obtain ⟨w, hw, hmade⟩ := hentries key made hm
    obtain ⟨hw, hleft⟩ := List.mem_filter.mp hw
    refine expandKeyword_held ih hreach hregular hs hw (by simpa using hleft) ?_ hmade
    rintro rfl target rfl
    have hnone := hkey rfl
    rw [Schema.reference?, Table.get?_of_mem hn hw] at hnone
    simpa using Option.filter_eq_none_iff.mp hnone target rfl

theorem expandSchema_lands (hroot : root.Distinct) (hregular : Regular root)
    (hreach : Reached root ⟨source, .schema, .obj members⟩) (hs : Sited stack B)
    (h : expandSchema root graph (expand root graph n)
      (stack ++ [⟨source, Pointer.ofSegments B⟩]) source (Pointer.ofSegments B) members =
        some made) : Settled (· = B) made := by
  have hshape := hregular _ hreach
  have hstands := reached_stands hroot hreach
  have hn : (Table.names members).Nodup := (Json.Stands.distinct hroot hstands).1
  obtain ⟨expanded, hexpanded, h⟩ := Option.bind_eq_some_iff.mp h
  obtain ⟨hnames, hheld⟩ := expandMembers_held ih hreach hshape.1 hn (hs.push source) hexpanded
  have hbeside : Settled (· = B) (.obj (Table.swapErase expanded "$ref")) := by
    refine Schema.settled_schema.mpr ⟨Table.nodup_swapErase hnames _, ?_⟩
    intro key v hm
    refine hheld key v (Table.mem_swapErase hm) ?_
    rintro rfl
    exact absurd hm (Table.not_mem_swapErase hnames)
  split at h
  · next hnone =>
      obtain rfl := Option.some.inj h
      exact finish_settled (Schema.settled_schema.mpr
        ⟨hnames, fun key v hm => hheld key v hm fun _ => hnone⟩)
  · next reference hreference =>
      dsimp only at h
      split at h
      · next copy hcopy =>
          obtain rfl := Option.some.inj h
          exact finish_settled (Schema.settled_insert hbeside
            (held_copy (openPlace?_mem hcopy) (hs.push source)))
      · split at h
        · obtain rfl := Option.some.inj h
          exact finish_settled hbeside
        · next named hnamed =>
            obtain ⟨inlined, hinlined, h⟩ := Option.bind_eq_some_iff.mp h
            have hjump : Visit.jump? root ⟨source, .schema, .obj members⟩ =
                some ⟨Pointer.normalize reference, .schema, named⟩ := by
              rw [Visit.jump?_of_reference hreference, hnamed]
              rfl
            obtain ⟨hanchored, hlist⟩ := ih (hreach.tail (.jump hjump)) (hs.push source) hinlined
            have hinl : Settled (· = B) inlined := ⟨hanchored, hlist (hshape.2 _ hjump)⟩
            split at h
            · obtain rfl := Option.some.inj h
              exact finish_settled hinl
            · obtain rfl := Option.some.inj h
              refine finish_settled (Schema.mergeAll_settled ?_)
              intro x hx
              rcases List.mem_cons.mp hx with rfl | hx
              · exact hbeside
              · exact List.mem_singleton.mp hx ▸ hinl

theorem expandList_lands {items more : List Json}
    (hreach : ∀ w ∈ Visit.itemsBelow source items, Reached root w)
    (hlists : ∀ x ∈ items, Plain x) (hs : Sited stack B)
    (h : expandItems (expand root graph n) stack source (Pointer.item (Pointer.ofSegments B))
      items = some more) :
    Anchored (· = B) role (.arr more) ∧ (Plain (.arr items) → Plain (.arr more)) := by
  have hsettled : ∀ {i x}, more[i]? = some x → Settled (· = B ++ [Nat.repr i]) x := by
    intro i x hx
    exact expandItems_lands ih (Pointer.item_ofSegments B) (fun i => hs.below (Nat.repr i)) hreach
      hlists h hx
  refine ⟨.list ?_ ?_, ?_⟩
  · intro x hx
    obtain ⟨i, hi⟩ := List.mem_iff_getElem?.mp hx
    exact (hsettled hi).plain
  · intro i x hx
    exact ((hsettled hx).mono below_single).anchored
  · intro hplain _ hmade x hx
    obtain rfl := Json.arr.inj hmade
    obtain ⟨⟨item, i⟩, hi, hx⟩ := mapM_mem h hx
    obtain ⟨-, -, hmem⟩ := List.mem_zipIdx hi
    obtain ⟨harr, hobj⟩ := hplain items rfl item (hmem ▸ List.getElem_mem _)
    rw [expand_scalar harr hobj hx]
    exact ⟨harr, hobj⟩

theorem expandMap_lands {entries more : Members}
    (hreach : Reached root ⟨source, .map, .obj entries⟩)
    (hregular : Visit.Regular ⟨source, .map, .obj entries⟩) (hn : (Table.names entries).Nodup)
    (hs : Sited stack B)
    (h : expandMap (expand root graph n) stack source (Pointer.ofSegments B) entries = some more) :
    Anchored (· = B) .map (.obj more) := by
  obtain ⟨hnames, hentries⟩ := mapM_entries (f := fun name w =>
    expand root graph n stack (Pointer.child source name)
      (Pointer.child (Pointer.ofSegments B) name) .schema w) h
  refine Schema.anchored_map.mpr ⟨hnames ▸ hn, ?_⟩
  intro name made hm
  obtain ⟨w, hw, hmade⟩ := hentries name made hm
  have hvisit : (⟨Pointer.child source name, .schema, w⟩ : Visit) ∈
      Visit.below ⟨source, .map, .obj entries⟩ := List.mem_map.mpr ⟨(name, w), hw, rfl⟩
  rw [Pointer.child_ofSegments] at hmade
  obtain ⟨hanchored, hlist⟩ := ih (hreach.tail (.down hvisit)) (hs.below name) hmade
  exact Settled.mono ⟨hanchored, hlist (hregular name w hw)⟩ below_single

omit ih in
/-- An expansion anchors every reference that it leaves. -/
theorem lands (hroot : root.Distinct) (hregular : Regular root) (n : Nat) :
    Lands root graph n := by
  induction n with
  | zero => exact fun _ _ h => absurd h (Option.some_ne_none _).symm
  | succ n ih =>
      intro stack B source role value made hreach hs h
      have hshape := (hregular _ hreach).1
      cases value with
      | arr items =>
          have hitems : (expandItems (expand root graph n) stack source
              (Pointer.item (Pointer.ofSegments B)) items).map .arr = some made := by
            cases role <;> exact h
          have hlists : ∀ x ∈ items, Plain x := by
            cases role <;> exact hshape
          have hbelow : ∀ w ∈ Visit.itemsBelow source items, Reached root w := by
            intro w hw
            refine hreach.tail (.down ?_)
            cases role <;> exact hw
          obtain ⟨more, hmore, rfl⟩ := Option.map_eq_some_iff.mp hitems
          exact expandList_lands ih hbelow hlists hs hmore
      | obj entries =>
          cases role with
          | schema =>
              have hmade := expandSchema_lands ih hroot hregular hreach hs h
              exact ⟨hmade.anchored, fun _ => hmade.plain⟩
          | map =>
              have hn := (Json.Stands.distinct hroot (reached_stands hroot hreach)).1
              obtain ⟨more, hmore, rfl⟩ := Option.map_eq_some_iff.mp h
              exact ⟨expandMap_lands ih hreach hshape hn hs hmore,
                fun _ => plain_of_arr? rfl⟩
      | _ =>
          obtain rfl := expand_scalar rfl rfl h
          exact ⟨.scalar rfl rfl, fun _ => plain_of_arr? rfl⟩

end Expanding

end Expansion

end SchemaForm
