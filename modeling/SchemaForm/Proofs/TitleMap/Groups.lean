/-
Groups in title maps.

An entry that belongs to a group is flattened like the bucket of its options, and gathering it puts
these options behind those of the last bucket or into one of their own.  So flattening the collected
entries gives what flattening the entries gives (`flatten_collect`), and no bucket is followed by
one of the same group (`isChain_collect`).  Whether a selection can be cleared is asked of the
values alone, which flattening keeps, so that the entry for it is added to both or to neither
(`flatten_build`).
-/
import Mathlib.Data.List.Chain
import SchemaForm.TitleMap.Build

namespace SchemaForm

namespace TitleMap

namespace Entry

/-- The group of a bucket. -/
def bucketGroup? : Entry → Option String
  | .bucket group _ => some group
  | .choice _ => none

/-- The entries are not two buckets of one group. -/
def Apart (e e' : Entry) : Prop :=
  ∀ group, e.bucketGroup? = some group → e'.bucketGroup? ≠ some group

theorem bucketGroup?_eq_none {e : Entry} (h : e.isGrouped = false) : e.bucketGroup? = none := by
  cases e with
  | choice c => rfl
  | bucket group choices => cases h

theorem apart_of_none {e e' : Entry} (h : e.bucketGroup? = none ∨ e'.bucketGroup? = none) :
    e.Apart e' := by
  intro group he he'
  rcases h with h | h
  · exact Option.some_ne_none group (he.symm.trans h)
  · exact Option.some_ne_none group (he'.symm.trans h)

end Entry

variable {e : Entry} {es : List Entry} {group : String} {choices : List Choice}

/-! ## Flattening -/

theorem flatten_append (es more : List Entry) :
    flatten (es ++ more) = flatten es ++ flatten more :=
  List.flatMap_append

theorem flatten_singleton (e : Entry) : flatten [e] = flattenEntry e :=
  List.flatMap_singleton ..

/-- Buckets belong to a group. -/
theorem bucketGroup?_of_groupOf (h : groupOf e = none) : e.bucketGroup? = none := by
  cases e with
  | choice c => rfl
  | bucket group choices => cases h

/-- An entry of a group is flattened like the bucket of what it brings. -/
theorem flattenEntry_of_groupOf (h : groupOf e = some (group, choices)) :
    flattenEntry e = flattenEntry (.bucket group choices) := by
  obtain ⟨name, value, _ | own⟩ | ⟨label, bucket⟩ := e
  · cases h
  · obtain ⟨rfl, rfl⟩ := Prod.mk.inj (Option.some.inj h)
    rfl
  · obtain ⟨rfl, rfl⟩ := Prod.mk.inj (Option.some.inj h)
    rfl

/-- A bucket is flattened piece by piece. -/
theorem flattenEntry_bucket_append (group : String) (bucket choices : List Choice) :
    flattenEntry (.bucket group (bucket ++ choices)) =
      flattenEntry (.bucket group bucket) ++ flattenEntry (.bucket group choices) := by
  simp only [flattenEntry, List.map_append]

theorem flattenEntry_ungrouped (h : e.isGrouped = false) : flattenEntry e = [e] := by
  obtain ⟨name, value, _ | own⟩ | ⟨label, bucket⟩ := e
  · rfl
  · cases h
  · cases h

/-- Entries without groups are left as they are. -/
theorem flatten_ungrouped (h : es.any Entry.isGrouped = false) : flatten es = es := by
  induction es with
  | nil => rfl
  | cons e es ih =>
      rw [List.any_cons, Bool.or_eq_false_iff] at h
      rw [flatten, List.flatMap_cons, flattenEntry_ungrouped h.1, ← flatten, ih h.2]
      rfl

/-- Flattening keeps the values. -/
theorem hasEmpty_flattenEntry (e : Entry) : (flattenEntry e).any Entry.hasEmpty = e.hasEmpty := by
  obtain ⟨name, value, _ | own⟩ | ⟨label, bucket⟩ := e
  · simp [flattenEntry]
  · simp [flattenEntry, option, Entry.hasEmpty, Choice.plain]
  · simp [flattenEntry, option, Entry.hasEmpty, Choice.plain, List.any_map, Function.comp_def]

theorem hasEmpty_flatten (es : List Entry) :
    (flatten es).any Entry.hasEmpty = es.any Entry.hasEmpty := by
  simp only [flatten, List.any_flatMap, hasEmpty_flattenEntry]

/-! ## Gathering -/

/-- What gathering an entry does: one of a group is put into the last bucket, if that has the
group, and into a new one otherwise; any other entry is put behind. -/
theorem gather_cases (es : List Entry) (e : Entry) :
    (groupOf e = none ∧ gather es e = es ++ [e]) ∨
      ∃ group choices, groupOf e = some (group, choices) ∧
        ((∃ front bucket, es = front ++ [.bucket group bucket] ∧
            gather es e = front ++ [.bucket group (bucket ++ choices)]) ∨
          ((∀ last ∈ es.getLast?, last.bucketGroup? ≠ some group) ∧
            gather es e = es ++ [.bucket group choices])) := by
  unfold gather
  cases hgroup : groupOf e with
  | none => exact .inl ⟨rfl, rfl⟩
  | some brought =>
      obtain ⟨group, choices⟩ := brought
      refine .inr ⟨group, choices, rfl, ?_⟩
      cases hlast : es.getLast? with
      | none => exact .inr ⟨by simp, rfl⟩
      | some last =>
          cases last with
          | choice c => exact .inr ⟨by simp [Entry.bucketGroup?], rfl⟩
          | bucket label bucket =>
              by_cases hsame : label = group
              · subst hsame
                obtain ⟨front, rfl⟩ := List.getLast?_eq_some_iff.mp hlast
                exact .inl ⟨front, bucket, rfl, by simp⟩
              · exact .inr ⟨by simpa [Entry.bucketGroup?] using hsame, if_neg hsame⟩

theorem flatten_gather (es : List Entry) (e : Entry) :
    flatten (gather es e) = flatten es ++ flattenEntry e := by
  rcases gather_cases es e with ⟨-, hgather⟩ | ⟨group, choices, hgroup, hcases⟩
  · rw [hgather, flatten_append, flatten_singleton]
  · rw [flattenEntry_of_groupOf hgroup]
    rcases hcases with ⟨front, bucket, rfl, hgather⟩ | ⟨-, hgather⟩
    · rw [hgather, flatten_append, flatten_append, flatten_singleton, flatten_singleton,
        flattenEntry_bucket_append, List.append_assoc]
    · rw [hgather, flatten_append, flatten_singleton]

/-- An entry behind others, of another group than the last one. -/
theorem isChain_concat (h : es.IsChain Entry.Apart) (he : ∀ last ∈ es.getLast?, last.Apart e) :
    (es ++ [e]).IsChain Entry.Apart := by
  refine h.append (.singleton e) fun last hlast other hother => ?_
  obtain rfl := Option.some.inj hother
  exact he last hlast

theorem isChain_gather (h : es.IsChain Entry.Apart) (e : Entry) :
    (gather es e).IsChain Entry.Apart := by
  rcases gather_cases es e with ⟨hgroup, hgather⟩ | ⟨group, choices, -, hcases⟩
  · rw [hgather]
    exact isChain_concat h fun last _ => Entry.apart_of_none (.inr (bucketGroup?_of_groupOf hgroup))
  · rcases hcases with ⟨front, bucket, rfl, hgather⟩ | ⟨hlast, hgather⟩
    · -- the last bucket keeps its group, so what stands before it need not be looked at again
      obtain ⟨hfront, -, hbefore⟩ := List.isChain_append.mp h
      rw [hgather]
      exact isChain_concat hfront fun last hlast => hbefore last hlast (.bucket group bucket) rfl
    · rw [hgather]
      refine isChain_concat h fun last hmem own hown hgroup => ?_
      obtain rfl := Option.some.inj hgroup
      exact hlast last hmem hown

theorem collect_concat (es : List Entry) (e : Entry) :
    collect (es ++ [e]) = gather (collect es) e := by
  rw [collect, List.foldl_concat, ← collect]

/-- Collecting groups changes nothing of what flattening gives. -/
theorem flatten_collect (es : List Entry) : flatten (collect es) = flatten es := by
  induction es using List.reverseRecOn with
  | nil => rfl
  | append_singleton es e ih =>
      rw [collect_concat, flatten_gather, ih, flatten_append, flatten_singleton]

/-- An empty bucket of the group goes into the bucket before it. -/
example : collect [.choice ⟨"b", .null, some "a"⟩, .bucket "a" []] =
    [.bucket "a" [.plain "b" .null]] := rfl

/-- No bucket is followed by one of its group. -/
theorem isChain_collect (es : List Entry) : (collect es).IsChain Entry.Apart := by
  induction es using List.reverseRecOn with
  | nil => exact .nil
  | append_singleton es e ih =>
      rw [collect_concat]
      exact isChain_gather ih e

theorem isChain_ungrouped (h : es.any Entry.isGrouped = false) : es.IsChain Entry.Apart := by
  refine (List.pairwise_of_forall_mem_list fun e he e' _ => ?_).isChain
  have hplain : e.isGrouped = false := (Bool.not_eq_true _).mp (List.any_eq_false.mp h e he)
  exact Entry.apart_of_none (.inl (Entry.bucketGroup?_eq_none hplain))

/-! ## Title maps -/

theorem build_required (titleMap : Option Json) (listed : Option (List Json)) (flat : Bool) :
    build titleMap listed true flat = arrange flat (Source.of titleMap listed).toEntries := rfl

/-- Where there are no groups, there is nothing to flatten. -/
theorem arrange_flat (es : List Entry) : arrange true es = flatten es := by
  unfold arrange
  cases hgrouped : es.any Entry.isGrouped with
  | true => rfl
  | false => exact (flatten_ungrouped hgrouped).symm

theorem flatten_arrange (es : List Entry) : flatten (arrange false es) = arrange true es := by
  rw [arrange_flat, arrange]
  cases es.any Entry.isGrouped with
  | true => exact flatten_collect es
  | false => rfl

theorem isChain_arrange (es : List Entry) : (arrange false es).IsChain Entry.Apart := by
  unfold arrange
  cases hgrouped : es.any Entry.isGrouped with
  | true => exact isChain_collect es
  | false => exact isChain_ungrouped hgrouped

/-- **Flat and grouped title maps agree.**  For every title map and list of allowed values,
flattening the grouped entries gives the flat ones, and no two neighbours among the grouped
entries are buckets of one group. -/
theorem flatten_build (titleMap : Option Json) (allowed : Option (List Json)) (required : Bool) :
    flatten (build titleMap allowed required false) = build titleMap allowed required true ∧
      (build titleMap allowed required false).IsChain Entry.Apart := by
  have hflat := flatten_arrange (Source.of titleMap allowed).toEntries
  have hchain := isChain_arrange (Source.of titleMap allowed).toEntries
  have hempty := hasEmpty_flatten (arrange false (Source.of titleMap allowed).toEntries)
  rw [hflat] at hempty
  unfold build
  dsimp only
  rw [hempty]
  split
  · exact ⟨hflat, hchain⟩
  · refine ⟨?_, hchain.cons fun first _ => Entry.apart_of_none (.inl rfl)⟩
    rw [← hflat]
    rfl

end TitleMap

end SchemaForm
