/-
When the expansion of references ends.

The expansion stops at a jump only when the jumping object is a source of the
recursive links and the target is the source of a frame, which is always a schema
object.  So a jump is *free*, never stopped at, unless its source is recursive
and its target is an object, and

    resolving returns  ↔  no visit it can come to lies on a loop of free steps

(`Resolved.returns_iff`).  Both directions are about the whole step relation,
with the jumps that are stopped: a shortest way to a loop is not stopped, for it
would have passed the frame's object before, and where there is no loop a run of
free steps repeats no visit while every other jump opens a new frame.
-/
import Mathlib.Logic.Relation
import SchemaForm.Proofs.Json.Visits
import SchemaForm.Proofs.Reference.Closure
import SchemaForm.Proofs.Reference.Visit
import SchemaForm.Reference.Resolved

namespace SchemaForm

namespace Expansion

open Schema (Role)

/-! ## A loop of free steps does not end -/

open Relation (ReflTransGen TransGen)

section Looping

variable {root : Json} {graph : Graph} {v w : Visit} {above : List String}

/-- A loop of free steps can be come to by free steps. -/
def Endless (root : Json) (graph : Graph) (v : Visit) : Prop :=
  ∃ u, ReflTransGen (FreeStep root graph) v u ∧ TransGen (FreeStep root graph) u u

theorem Endless.step (h : Endless root graph v) :
    ∃ w, FreeStep root graph v w ∧ Endless root graph w := by
  obtain ⟨u, hvu, hloop⟩ := h
  rcases hvu.cases_head with rfl | ⟨w, hvw, hwu⟩
  · obtain ⟨w, hvw, hwv⟩ := TransGen.head'_iff.mp hloop
    exact ⟨w, hvw, v, hwv, hloop⟩
  · exact ⟨w, hvw, u, hwu, hloop⟩

/-- The open frames are objects of the document. -/
def Framed (root : Json) (above : List String) : Prop :=
  ∀ s ∈ above, ∃ members, root.Stands s (.obj members)

theorem Framed.over (h : Framed root above) (hv : v.Stands root) :
    Framed root (v.framesOver above) := by
  intro s hs
  rcases mem_framesOver hs with hs | ⟨members, rfl⟩
  · exact h s hs
  · exact ⟨members, hv⟩

theorem not_ends_of_endless (hroot : root.Distinct) {n : Nat} (hv : v.Stands root)
    (habove : Framed root above) (h : Endless root graph v) : ¬Ends root graph n above v := by
  induction n generalizing v above with
  | zero => exact id
  | succ n ih =>
      rintro ⟨hdown, hjump⟩
      obtain ⟨w, hvw, hw⟩ := h.step
      have hws : w.Stands root := hvw.step.stands hroot hv
      have hover := habove.over hv
      cases hvw with
      | down hm => exact ih hws hover hw (hdown w hm)
      | jump hj hfree =>
          refine ih hws hover hw (hjump w hj ?_)
          rintro ⟨hrec, hmem⟩
          obtain ⟨members, hobj⟩ := hover _ hmem
          have hvalue : w.value = .obj members := Json.Stands.unique hws hobj
          exact hfree ⟨hrec, by rw [hvalue]; rfl⟩

/-- A loop of free steps can be come to in so many steps of any kind and then
free ones. -/
def Near (root : Json) (graph : Graph) : Nat → Visit → Prop
  | 0, v => Endless root graph v
  | d + 1, v => Near root graph d v ∨ ∃ w, Step root v w ∧ Near root graph d w

/-- The open frames are objects from which there is no way as short. -/
def Farther (root : Json) (graph : Graph) (d : Nat) (above : List String) : Prop :=
  ∀ s ∈ above, ∃ members, root.Stands s (.obj members) ∧
    ¬Near root graph d ⟨s, .schema, .obj members⟩

theorem Farther.framed {d : Nat} (h : Farther root graph d above) : Framed root above := by
  intro s hs
  obtain ⟨members, hobj, -⟩ := h s hs
  exact ⟨members, hobj⟩

theorem not_ends_of_near (hroot : root.Distinct) {d n : Nat} (hv : v.Stands root)
    (habove : Farther root graph d above) (h : Near root graph d v) :
    ¬Ends root graph n above v := by
  induction d generalizing n above v with
  | zero => exact not_ends_of_endless hroot hv habove.framed h
  | succ d ih =>
      have habove' : Farther root graph d above := by
        intro s hs
        obtain ⟨members, hobj, hfar⟩ := habove s hs
        exact ⟨members, hobj, fun hnear => hfar (.inl hnear)⟩
      by_cases hnear : Near root graph d v
      · exact ih hv habove' hnear
      · obtain ⟨w, hvw, hw⟩ := h.resolve_left hnear
        have hws : w.Stands root := hvw.stands hroot hv
        -- the object itself is on the stack now, and it is as far away
        have hover : Farther root graph d (v.framesOver above) := by
          intro s hs
          rcases mem_framesOver hs with hs | ⟨members, rfl⟩
          · exact habove' s hs
          · exact ⟨members, hv, hnear⟩
        cases n with
        | zero => exact id
        | succ n =>
            rintro ⟨hdown, hjump⟩
            cases hvw with
            | down hm => exact ih hws hover hw (hdown w hm)
            | jump hj =>
                refine ih hws hover hw (hjump w hj ?_)
                rintro ⟨-, hmem⟩
                obtain ⟨members, hobj, hfar⟩ := hover _ hmem
                have hvalue : w.value = .obj members := Json.Stands.unique hws hobj
                refine hfar ?_
                rw [← hvalue, ← jump?_role hj]
                exact hw

theorem near_of_reaches {u : Visit} (h : ReflTransGen (Step root) v u)
    (hu : Endless root graph u) : ∃ d, Near root graph d v := by
  induction h using ReflTransGen.head_induction_on with
  | refl => exact ⟨0, hu⟩
  | head hstep _ ih =>
      obtain ⟨d, hd⟩ := ih
      exact ⟨d + 1, .inr ⟨_, hstep, hd⟩⟩

end Looping

/-! ## Without such a loop every run ends -/

section Ending

variable {root : Json} {graph : Graph} {start v w : Visit} {above opened : List String}
  {seen : List Visit}

/-- What tells visits of one document apart. -/
def Visit.key (v : Visit) : String × Role := (v.source, v.role)

/-- The keys of all visits of a document. -/
def keys (root : Json) : List (String × Role) :=
  root.places.flatMap fun place => [(place, .schema), (place, .map)]

theorem length_keys (root : Json) : (keys root).length = 2 * root.size := by
  rw [← Json.length_places root, keys, List.length_flatMap]
  simp [Nat.mul_comm]

theorem Visit.Stands.key_mem (h : v.Stands root) : v.key ∈ keys root := by
  have hplace := Json.Stands.mem_places h
  obtain ⟨source, role, value⟩ := v
  refine List.mem_flatMap.mpr ⟨source, hplace, ?_⟩
  cases role
  · exact List.mem_cons_self
  · exact List.mem_cons_of_mem _ List.mem_cons_self

theorem Visit.Stands.eq_of_key (hv : v.Stands root) (hw : w.Stands root) (h : v.key = w.key) :
    v = w := by
  obtain ⟨source, role, value⟩ := v
  obtain ⟨source', role', value'⟩ := w
  obtain ⟨rfl, rfl⟩ := Prod.mk.inj h
  obtain rfl : value = value' := Json.Stands.unique hv hw
  rfl

/-- A visit on a run from the start: `seen` are the visits since the last jump that
could have been stopped, `opened` the frames opened by such jumps. -/
structure OnRoute (root : Json) (graph : Graph) (start : Visit) (above : List String)
    (seen : List Visit) (opened : List String) (v : Visit) : Prop where
  reached : ReflTransGen (Step root) start v
  stands : v.Stands root
  seenStand : ∀ u ∈ seen, u.Stands root
  lead : ∀ u ∈ seen, TransGen (FreeStep root graph) u v
  seenNodup : (seen.map Visit.key).Nodup
  openedNodup : opened.Nodup
  openedFrames : opened ⊆ v.framesOver above
  openedPlaces : opened ⊆ root.places

namespace OnRoute

theorem nodup_seen (h : OnRoute root graph start above seen opened v)
    (hv : ¬TransGen (FreeStep root graph) v v) : ((seen ++ [v]).map Visit.key).Nodup := by
  rw [List.map_append, List.map_singleton]
  refine List.Nodup.append h.seenNodup (List.nodup_singleton _) ?_
  intro k hk hv'
  obtain ⟨u, hu, rfl⟩ := List.mem_map.mp hk
  have huv : u = v := (h.seenStand u hu).eq_of_key h.stands (List.mem_singleton.mp hv')
  exact hv (huv ▸ h.lead u hu)

theorem length_seen (h : OnRoute root graph start above seen opened v)
    (hv : ¬TransGen (FreeStep root graph) v v) : seen.length < 2 * root.size := by
  have hsub : (seen ++ [v]).map Visit.key ⊆ keys root := by
    intro k hk
    obtain ⟨u, hu, rfl⟩ := List.mem_map.mp hk
    cases List.mem_append.mp hu with
    | inl hu => exact (h.seenStand u hu).key_mem
    | inr hu => exact List.mem_singleton.mp hu ▸ h.stands.key_mem
  have hle := (List.subperm_of_subset (h.nodup_seen hv) hsub).length_le
  rw [length_keys, List.length_map, List.length_append, List.length_singleton] at hle
  omega

theorem length_opened (h : OnRoute root graph start above seen opened v) :
    opened.length ≤ root.size := by
  have hle := (List.subperm_of_subset h.openedNodup h.openedPlaces).length_le
  rwa [Json.length_places] at hle

theorem free (hroot : root.Distinct) (h : OnRoute root graph start above seen opened v)
    (hv : ¬TransGen (FreeStep root graph) v v) (hvw : FreeStep root graph v w) :
    OnRoute root graph start (v.framesOver above) (seen ++ [v]) opened w where
  reached := h.reached.tail hvw.step
  stands := hvw.step.stands hroot h.stands
  seenStand := by
    intro u hu
    cases List.mem_append.mp hu with
    | inl hu => exact h.seenStand u hu
    | inr hu => exact List.mem_singleton.mp hu ▸ h.stands
  lead := by
    intro u hu
    cases List.mem_append.mp hu with
    | inl hu => exact (h.lead u hu).tail hvw
    | inr hu => exact List.mem_singleton.mp hu ▸ .single hvw
  seenNodup := h.nodup_seen hv
  openedNodup := h.openedNodup
  openedFrames := fun _ hs => subset_framesOver _ _ (h.openedFrames hs)
  openedPlaces := h.openedPlaces

theorem guarded (hroot : root.Distinct) (h : OnRoute root graph start above seen opened v)
    (hj : v.jump? root = some w) (hobj : w.value.isObj = true)
    (hnew : w.source ∉ v.framesOver above) :
    OnRoute root graph start (v.framesOver above) [] (w.source :: opened) w where
  reached := h.reached.tail (.jump hj)
  stands := (Step.jump hj).stands hroot h.stands
  seenStand := fun _ hu => absurd hu List.not_mem_nil
  lead := fun _ hu => absurd hu List.not_mem_nil
  seenNodup := List.nodup_nil
  openedNodup := List.nodup_cons.mpr ⟨fun hs => hnew (h.openedFrames hs), h.openedNodup⟩
  openedFrames := by
    have hself : w.source ∈ w.framesOver (v.framesOver above) := by
      obtain ⟨source, role, value⟩ := w
      obtain rfl : role = .schema := jump?_role hj
      cases value with
      | obj members => exact List.mem_append_right _ (List.mem_singleton.mpr rfl)
      | _ => cases hobj
    exact List.cons_subset.mpr ⟨hself, fun _ hs => subset_framesOver _ _ (h.openedFrames hs)⟩
  openedPlaces := List.cons_subset.mpr
    ⟨((Step.jump hj).stands hroot h.stands : w.Stands root).mem_places, h.openedPlaces⟩

end OnRoute

/-- Every jump that could have been stopped opens one of `root.size` frames, and
between two of them there are fewer than `2 * root.size` steps. -/
theorem ends_of_route (hroot : root.Distinct)
    (hno : ∀ v, ReflTransGen (Step root) start v → ¬TransGen (FreeStep root graph) v v) {n : Nat}
    (h : OnRoute root graph start above seen opened v)
    (hn : (root.size + 1) * (2 * root.size + 1) ≤
      n + seen.length + opened.length * (2 * root.size + 1)) :
    Ends root graph n above v := by
  induction n generalizing above seen opened v with
  | zero =>
      have hseen := h.length_seen (hno v h.reached)
      have hopened := Nat.mul_le_mul_right (2 * root.size + 1) h.length_opened
      rw [Nat.add_mul, Nat.one_mul] at hn
      omega
  | succ n ih =>
      have hv := hno v h.reached
      have hfree : ∀ {w}, FreeStep root graph v w → Ends root graph n (v.framesOver above) w := by
        intro w hvw
        refine ih (h.free hroot hv hvw) ?_
        rw [List.length_append, List.length_singleton]
        omega
      refine ⟨fun w hw => hfree (.down hw), fun w hj hopen => ?_⟩
      by_cases hg : graph.isRecursive v.source = true ∧ w.value.isObj = true
      · refine ih (h.guarded hroot hj hg.2 fun hmem => hopen ⟨hg.1, hmem⟩) ?_
        have hseen := h.length_seen hv
        have hmul : (opened.length + 1) * (2 * root.size + 1) =
            opened.length * (2 * root.size + 1) + (2 * root.size + 1) := Nat.succ_mul _ _
        rw [List.length_nil, List.length_cons, hmul]
        omega
      · exact hfree (.jump hj hg)

end Ending

/-- An expansion returns when none of the visits it can come to is on a loop of
free steps; otherwise it does not, however deep it may nest. -/
theorem ends_iff {root : Json} {graph : Graph} {start : Visit} (hroot : root.Distinct)
    (hstart : start.Stands root) :
    Ends root graph (depthLimit root) [] start ↔
      ¬∃ v, ReflTransGen (Step root) start v ∧ TransGen (FreeStep root graph) v v := by
  constructor
  · rintro h ⟨v, hreach, hloop⟩
    have hv : Endless root graph v := ⟨v, .refl, hloop⟩
    obtain ⟨d, hd⟩ := near_of_reaches hreach hv
    exact not_ends_of_near hroot hstart (fun _ hs => absurd hs List.not_mem_nil) hd h
  · intro hno
    have hroute : OnRoute root graph start [] [] [] start :=
      ⟨.refl, hstart, fun _ hu => absurd hu List.not_mem_nil,
        fun _ hu => absurd hu List.not_mem_nil, List.nodup_nil, List.nodup_nil,
        List.nil_subset _, List.nil_subset _⟩
    refine ends_of_route hroot (fun v hv hloop => hno ⟨v, hv, hloop⟩) hroute ?_
    have hlimit : depthLimit root = (root.size + 1) * (2 * (root.size + 2)) := by
      rw [depthLimit, Nat.mul_comm 2, Nat.mul_assoc]
    have hle : (root.size + 1) * (2 * root.size + 1) ≤ depthLimit root := by
      rw [hlimit]
      exact Nat.mul_le_mul_left _ (by omega)
    simp only [List.length_nil, Nat.zero_mul, Nat.add_zero]
    exact hle

/-! ## Loops through links -/

section Linked

variable {root : Json} {graph : Graph} {v w : Visit}

/-- A loop of free steps passes a jump, for going down makes values smaller. -/
theorem exists_jump (h : TransGen (FreeStep root graph) v w) :
    w.value.size < v.value.size ∨ ∃ x y, ReflTransGen (FreeStep root graph) v x ∧
      x.jump? root = some y ∧ ¬(graph.isRecursive x.source = true ∧ y.value.isObj = true) ∧
      ReflTransGen (FreeStep root graph) y w := by
  induction h with
  | single h =>
      cases h with
      | down hm => exact .inl (below_within hm).2
      | jump hj hg => exact .inr ⟨_, _, .refl, hj, hg, .refl⟩
  | tail hvx h ih =>
      rcases ih with hsize | ⟨x, y, hx, hj, hg, hy⟩
      · cases h with
        | down hm => exact .inl (Nat.lt_trans (below_within hm).2 hsize)
        | jump hj hg => exact .inr ⟨_, _, hvx.to_reflTransGen, hj, hg, .refl⟩
      · exact .inr ⟨x, y, hx, hj, hg, hy.tail h⟩

/-- Steps that only jump along links are followed by chains. -/
theorem chain_of_steps {links : List Link} {source : String}
    (hlinks : ∀ {x y}, ReflTransGen (FreeStep root graph) v x → x.jump? root = some y →
      ⟨x.source, y.source⟩ ∈ links)
    (hv : ⟨source, v.source⟩ ∈ links) (h : ReflTransGen (FreeStep root graph) v w) :
    ∃ c, Graph.Chain links c ∧ c.source = source ∧ Pointer.covers c.target w.source = true := by
  induction h with
  | refl => exact ⟨_, .link hv, rfl, Pointer.covers_refl _⟩
  | tail hvx h ih =>
      obtain ⟨c, hc, rfl, hcovers⟩ := ih
      cases h with
      | down hm => exact ⟨c, hc, rfl, Pointer.covers_trans hcovers (below_within hm).1⟩
      | jump hj _ => exact ⟨_, hc.longer (hlinks hvx hj) hcovers, rfl, Pointer.covers_refl _⟩

end Linked

end Expansion

namespace Resolved

open Expansion Relation

/-! ## Resolving a document -/

/-- What a resolution expands: the document, and whatever a link leads to. -/
inductive Start (document : Json) : Visit → Prop
  | document : Start document ⟨"", .schema, document⟩
  | target {l : Link} {named : Json} : l ∈ Graph.linksOf document →
      document.at? l.target = some named → Start document ⟨l.target, .schema, named⟩

theorem mem_targets {document : Json} {target : String} :
    target ∈ (Graph.of document).targets ↔ ∃ l ∈ Graph.linksOf document, l.target = target := by
  rw [Graph.targets, List.mem_eraseDups, List.mem_map]
  rfl

theorem isSome_foldlM {α β : Type} {f : β → α → Option β} {p : α → Prop}
    (hf : ∀ b a, (f b a).isSome = true ↔ p a) (xs : List α) (b : β) :
    (xs.foldlM f b).isSome = true ↔ ∀ x ∈ xs, p x := by
  induction xs generalizing b with
  | nil => simp
  | cons x xs ih =>
      rw [List.foldlM_cons, List.forall_mem_cons, ← hf b x]
      cases hx : f b x with
      | none => simp
      | some b' => simp [ih b']

theorem targets?_isSome {document : Json} {graph : Graph} :
    (targets? document graph).isSome = true ↔ ∀ target ∈ graph.targets, ∀ named,
      document.at? target = some named →
        Ends document graph (depthLimit document) [] ⟨target, .schema, named⟩ := by
  refine isSome_foldlM (fun library target => ?_) _ _
  cases document.at? target with
  | none => simp
  | some named => simp [run?, expand_isSome]

theorem start_stands {document : Json} {v : Visit} (h : Start document v) : v.Stands document := by
  cases h with
  | document => exact Json.Stands.root document
  | target hl hat =>
      obtain ⟨object, -, he⟩ := List.mem_filterMap.mp hl
      obtain ⟨reference, -, rfl⟩ := Option.map_eq_some_iff.mp he
      exact Json.Stands.of_at?_normalize hat

theorem of?_isSome {document : Json} :
    (Resolved.of? document).isSome = true ↔ ∀ v, Start document v →
      Ends document (Graph.of document) (depthLimit document) [] v := by
  have hboth : (Resolved.of? document).isSome = true ↔
      (run? document (Graph.of document) document "").isSome = true ∧
        (targets? document (Graph.of document)).isSome = true := by
    unfold Resolved.of?
    generalize Graph.of document = graph
    cases hschema : run? document graph document "" <;>
      cases hlibrary : targets? document graph <;> simp [hschema, hlibrary]
  rw [hboth, run?, expand_isSome, targets?_isSome]
  constructor
  · rintro ⟨hdocument, htargets⟩ v hv
    cases hv with
    | document => exact hdocument
    | target hl hat => exact htargets _ (mem_targets.mpr ⟨_, hl, rfl⟩) _ hat
  · intro hends
    refine ⟨hends _ .document, ?_⟩
    intro target ht named hat
    obtain ⟨l, hl, rfl⟩ := mem_targets.mp ht
    exact hends _ (.target hl hat)

theorem of?_isSome_iff {document : Json} (h : document.Distinct) :
    (Resolved.of? document).isSome = true ↔
      ¬∃ start v, Start document start ∧ ReflTransGen (Step document) start v ∧
        TransGen (FreeStep document (Graph.of document)) v v := by
  rw [of?_isSome]
  constructor
  · rintro hends ⟨start, v, hstart, hreach, hloop⟩
    exact (ends_iff h (start_stands hstart)).mp (hends start hstart) ⟨v, hreach, hloop⟩
  · intro hno start hstart
    refine (ends_iff h (start_stands hstart)).mpr ?_
    rintro ⟨v, hreach, hloop⟩
    exact hno ⟨start, v, hstart, hreach, hloop⟩

theorem isRecursive_iff {document : Json} {s : String} :
    (Graph.of document).isRecursive s = true ↔ Graph.Entangled (Graph.linksOf document) s := by
  rw [Graph.isRecursive, List.contains_iff_mem]
  exact Graph.mem_recursiveOf

/-- Where every reference that is come to is one of the links and names an object,
resolving returns. -/
theorem of?_isSome_of_linked {document : Json} (h : document.Distinct)
    (hlinked : ∀ start v w, Start document start → ReflTransGen (Step document) start v →
      v.jump? document = some w →
        ⟨v.source, w.source⟩ ∈ Graph.linksOf document ∧ w.value.isObj = true) :
    (Resolved.of? document).isSome = true := by
  rw [of?_isSome_iff h]
  rintro ⟨start, v, hstart, hreach, hloop⟩
  have hsteps : ∀ {x}, ReflTransGen (FreeStep document (Graph.of document)) v x →
      ReflTransGen (Step document) start x := fun hx =>
    hreach.trans (ReflTransGen.mono (fun _ _ => FreeStep.step) _ _ hx)
  rcases exists_jump hloop with hsize | ⟨x, y, hx, hj, hg, hy⟩
  · exact absurd hsize (Nat.lt_irrefl _)
  · have hvy := (hx.tail (.jump hj hg))
    obtain ⟨hlink, hobj⟩ := hlinked start x y hstart (hsteps hx) hj
    obtain ⟨c, hc, hsource, hcovers⟩ := chain_of_steps
      (fun hz hjz => (hlinked start _ _ hstart (hsteps (hvy.trans hz)) hjz).1) hlink (hy.trans hx)
    refine hg ⟨isRecursive_iff.mpr ?_, hobj⟩
    rw [← hsource] at hcovers ⊢
    exact .cycle hc hcovers

/-- **When resolving a document returns.**  The closure of its links and the
recursive ones among them are complete.  The expansion returns when no visit it
can come to is on a loop of steps that are never stopped, and only then. -/
theorem returns_iff {document : Json} (h : document.Distinct) :
    (∀ c, c ∈ (Graph.of document).closure ↔ Graph.Chain (Graph.linksOf document) c) ∧
    (∀ s, (Graph.of document).isRecursive s = true ↔
      Graph.Entangled (Graph.linksOf document) s) ∧
    ((Resolved.of? document).isSome = true ↔
      ¬∃ start v, Start document start ∧ ReflTransGen (Step document) start v ∧
        TransGen (FreeStep document (Graph.of document)) v v) :=
  ⟨fun _ => Graph.mem_closureOf, fun _ => isRecursive_iff, of?_isSome_iff h⟩

/-- A reference to the list that holds it: no frame is opened for a list. -/
def listLoop : Json := .obj [("a", .arr [.obj [("$ref", .str "#/a")]])]

/-- A reference to data that is a reference to itself: it is none of the links. -/
def dataLoop : Json :=
  .obj [("properties", .obj [("a", .obj [("$ref", .str "#/default")])]),
    ("default", .obj [("$ref", .str "#/default")])]

theorem returns_iff_listLoop :
    listLoop.Distinct ∧ ¬(Resolved.of? listLoop).isSome = true := by
  have hdistinct : listLoop.Distinct := by
    simp [listLoop, Json.Distinct, Json.DistinctItems, Json.DistinctMembers, Table.names]
  refine ⟨hdistinct, fun h => (returns_iff hdistinct).2.2.mp h ?_⟩
  let list : Visit := ⟨"/a", .schema, .arr [.obj [("$ref", .str "#/a")]]⟩
  let item : Visit := ⟨"/a/0", .schema, .obj [("$ref", .str "#/a")]⟩
  have hdown : list ∈ Visit.below ⟨"", .schema, listLoop⟩ := List.mem_singleton.mpr rfl
  have hitem : item ∈ list.below := List.mem_singleton.mpr rfl
  have hjump : item.jump? listLoop = some list := rfl
  have hfree : ¬((Graph.of listLoop).isRecursive item.source = true ∧ list.value.isObj = true) :=
    fun h => Bool.false_ne_true h.2
  exact ⟨_, list, .document, .single (.down hdown),
    .tail (.single (.down hitem)) (.jump hjump hfree)⟩

theorem not_returns :
    (Resolved.of? listLoop).isSome = false ∧ (Resolved.of? dataLoop).isSome = false := by
  decide +kernel

end Resolved

end SchemaForm
