/-
Pointers as lists of segments.

A written pointer is determined by its segments (`ofSegments_injective`), one
step further down appends a segment, and `covers` is the prefix order:

    covers (ofSegments a) (ofSegments b) = true ↔ a <+: b

A list position has one spelling that is read as a position, its numeral.
-/
import Mathlib.Data.List.Infix
import Mathlib.Tactic.IntervalCases
import SchemaForm.Proofs.Pointer.Levels

namespace SchemaForm

namespace Pointer

/-! ## Numerals -/

theorem digitChar_of_isDigit {c : Char} (h : c.isDigit = true) :
    ∃ d < 10, c = Nat.digitChar d := by
  obtain ⟨hlo, hhi⟩ := Char.isDigit_iff_toNat.mp h
  have hlo' : 48 ≤ c.toNat := hlo
  have hhi' : c.toNat ≤ 57 := hhi
  refine ⟨c.toNat - 48, by omega, ?_⟩
  have hc : c = Char.ofNat c.toNat := (Char.ofNat_toNat c).symm
  generalize c.toNat = n at hc hlo' hhi'
  subst hc
  interval_cases n <;> rfl

/-- Digits read after a number are written after it. -/
theorem toDigits_ofDigitChars (cs : List Char) (hcs : ∀ c ∈ cs, c.isDigit = true) {acc : Nat}
    (hacc : 0 < acc) :
    Nat.toDigits 10 (Nat.ofDigitChars 10 cs acc) = Nat.toDigits 10 acc ++ cs := by
  induction cs generalizing acc with
  | nil => rw [Nat.ofDigitChars_nil, List.append_nil]
  | cons c cs ih =>
      obtain ⟨d, hd, rfl⟩ := digitChar_of_isDigit (hcs c List.mem_cons_self)
      rw [Nat.ofDigitChars_cons_digitChar_of_lt_ten hd,
        ih (fun x hx => hcs x (List.mem_cons_of_mem _ hx)) (by omega),
        ← Nat.toDigits_append_toDigits (by decide) hacc hd, Nat.toDigits_of_lt_base hd,
        List.append_assoc, List.singleton_append]

theorem head?_toDigits {n : Nat} (h : 0 < n) : (Nat.toDigits 10 n).head? ≠ some '0' := by
  induction n using Nat.strongRecOn with
  | ind n ih =>
      by_cases hn : n < 10
      · rw [Nat.toDigits_of_lt_base hn, List.head?_cons]
        intro hc
        exact absurd (Nat.digitChar_eq_zero.mp (Option.some.inj hc)) (by omega)
      · rw [Nat.toDigits_of_base_le (by decide) (by omega),
          List.head?_append_of_ne_nil _ Nat.toDigits_ne_nil]
        exact ih (n / 10) (by omega) (by omega)

theorem numeral?_toDigits (n : Nat) : numeral? (Nat.toDigits 10 n) = some n := by
  have hdigits : (Nat.toDigits 10 n).all Char.isDigit = true :=
    List.all_eq_true.mpr fun _ hc => Nat.isDigit_of_mem_toDigits (by decide) (by decide) hc
  rw [numeral?, if_pos ⟨Nat.toDigits_ne_nil, hdigits⟩, Nat.ofDigitChars_ten_toDigits]

theorem position?_repr (n : Nat) : position? (Nat.repr n) = some n := by
  unfold position?
  rw [Nat.toList_repr]
  split
  · next c rest h =>
      rcases Nat.eq_zero_or_pos n with rfl | hpos
      · rw [Nat.toDigits_zero] at h
        cases h
      · exact absurd (h ▸ rfl) (head?_toDigits hpos)
  · exact numeral?_toDigits n

theorem repr_injective : Function.Injective Nat.repr := by
  intro m n h
  have hread := congrArg position? h
  rw [position?_repr, position?_repr] at hread
  exact Option.some.inj hread

/-- A position is read off its numeral only. -/
theorem eq_repr_of_position? {s : String} {n : Nat} (h : position? s = some n) :
    s = Nat.repr n := by
  rw [← String.toList_inj, Nat.toList_repr]
  unfold position? at h
  split at h
  · exact absurd h (Option.some_ne_none n).symm
  · next cs hzero =>
      unfold numeral? at h
      split at h
      · next hc =>
          obtain rfl := Option.some.inj h
          have hdigits := List.all_eq_true.mp hc.2
          cases hs : s.toList with
          | nil => exact absurd hs hc.1
          | cons c rest =>
              rw [hs] at hdigits hzero
              obtain ⟨d, hd, rfl⟩ := digitChar_of_isDigit (hdigits c List.mem_cons_self)
              rw [Nat.ofDigitChars_cons_digitChar_of_lt_ten hd, Nat.mul_zero, Nat.zero_add]
              rcases Nat.eq_zero_or_pos d with rfl | hpos
              · cases rest with
                | nil => rfl
                | cons x more => exact absurd rfl (hzero x more)
              · have hmore : ∀ x ∈ rest, x.isDigit = true := fun x hx =>
                  hdigits x (List.mem_cons_of_mem _ hx)
                rw [toDigits_ofDigitChars _ hmore hpos, Nat.toDigits_of_lt_base hd,
                  List.singleton_append]
      · exact absurd h (Option.some_ne_none n).symm

/-! ## Segments -/

theorem escapeChars_toDigits (n : Nat) :
    escapeChars (Nat.toDigits 10 n) = Nat.toDigits 10 n := by
  have hdigits : ∀ c ∈ Nat.toDigits 10 n, c.isDigit = true := fun _ hc =>
    Nat.isDigit_of_mem_toDigits (by decide) (by decide) hc
  generalize Nat.toDigits 10 n = cs at hdigits
  induction cs with
  | nil => rfl
  | cons c cs ih =>
      have hc := hdigits c List.mem_cons_self
      have ht : c ≠ '~' := by rintro rfl; cases hc
      have hs : c ≠ '/' := by rintro rfl; cases hc
      rw [escapeChars, if_neg ht, if_neg hs, ih fun x hx => hdigits x (List.mem_cons_of_mem _ hx)]

theorem toList_ofSegments (segments : List String) :
    (ofSegments segments).toList = segments.flatMap fun s => '/' :: escapeChars s.toList :=
  String.toList_ofList

theorem ofSegments_append (a b : List String) :
    ofSegments (a ++ b) = ofSegments a ++ ofSegments b := by
  rw [← String.toList_inj, String.toList_append]
  simp only [toList_ofSegments, List.flatMap_append]

theorem child_ofSegments (segments : List String) (name : String) :
    child (ofSegments segments) name = ofSegments (segments ++ [name]) := by
  rw [← String.toList_inj, ofSegments_append]
  simp [child, escape, toList_ofSegments]

theorem item_ofSegments (segments : List String) (i : Nat) :
    item (ofSegments segments) i = ofSegments (segments ++ [Nat.repr i]) := by
  rw [← String.toList_inj, ofSegments_append]
  simp [item, toList_ofSegments, escapeChars_toDigits]

theorem anyItem_ofSegments (segments : List String) :
    anyItem (ofSegments segments) = ofSegments (segments ++ [wildcard]) := by
  rw [← String.toList_inj, ofSegments_append]
  simp [anyItem, toList_ofSegments, wildcard, escapeChars]

theorem ofSegments_injective : Function.Injective ofSegments := by
  intro a b h
  have hs := congrArg segments? h
  rw [segments?_ofSegments, segments?_ofSegments] at hs
  exact Option.some.inj hs

theorem segments?_isSome (text : String) : (segments? text).isSome = isPointer text := by
  unfold segments? isPointer
  cases unmarked text.toList with
  | nil => rfl
  | cons c rest =>
      by_cases hc : c = '/'
      · subst hc
        rfl
      · simp [hc]

/-- A text is read like its one spelling. -/
theorem segments?_normalize (text : String) : segments? (normalize text) = segments? text := by
  unfold normalize
  cases h : segments? text with
  | none => exact h
  | some segments => exact segments?_ofSegments segments

theorem normalize_normalize (text : String) : normalize (normalize text) = normalize text := by
  rw [normalize, segments?_normalize]
  cases h : segments? text with
  | none => rfl
  | some segments => rw [normalize, h]

/-- A pointer that is written from segments. -/
def Written (pointer : String) : Prop := ∃ segments, pointer = ofSegments segments

/-! ## Containment -/

theorem covers_iff {above below : String} :
    covers above below = true ↔ ∃ rest, unmarked below.toList = unmarked above.toList ++ rest ∧
      (rest = [] ∨ unmarked above.toList = [] ∨ rest.head? = some '/') := by
  unfold covers
  constructor
  · intro h
    split at h
    · next hp => exact ⟨[], (List.isPrefixOf?_eq_some_iff_append_eq.mp hp).symm, .inl rfl⟩
    · next c rest hp =>
        refine ⟨c :: rest, (List.isPrefixOf?_eq_some_iff_append_eq.mp hp).symm, .inr ?_⟩
        cases Bool.or_eq_true_iff.mp h with
        | inl h => exact .inl (List.isEmpty_iff.mp h)
        | inr h => exact .inr (congrArg some (eq_of_beq h))
    · exact absurd h Bool.false_ne_true
  · rintro ⟨rest, heq, h⟩
    rw [List.isPrefixOf?_eq_some_iff_append_eq.mpr heq.symm]
    rcases rest with _ | ⟨c, rest⟩
    · rfl
    · rcases h with h | h | h
      · exact absurd h (List.cons_ne_nil _ _)
      · simp only [h, List.isEmpty_nil, Bool.true_or]
      · obtain rfl : c = '/' := Option.some.inj h
        simp only [beq_self_eq_true, Bool.or_true]

theorem covers_refl (pointer : String) : covers pointer pointer = true :=
  covers_iff.mpr ⟨[], (List.append_nil _).symm, .inl rfl⟩

theorem covers_trans {a b c : String} (hab : covers a b = true) (hbc : covers b c = true) :
    covers a c = true := by
  obtain ⟨r, hr, h₁⟩ := covers_iff.mp hab
  obtain ⟨t, ht, h₂⟩ := covers_iff.mp hbc
  refine covers_iff.mpr ⟨r ++ t, by rw [ht, hr, List.append_assoc], ?_⟩
  rcases r with _ | ⟨x, r⟩
  · rw [List.append_nil] at hr
    rw [List.nil_append, ← hr]
    exact h₂
  · rcases h₁ with h₁ | h₁ | h₁
    · exact absurd h₁ (List.cons_ne_nil _ _)
    · exact .inr (.inl h₁)
    · exact .inr (.inr h₁)

theorem unmarked_cons {c : Char} (hc : c ≠ '#') (rest : List Char) :
    unmarked (c :: rest) = c :: rest := by
  unfold unmarked
  split
  · next h => exact absurd (List.cons.inj h).1 hc
  · rfl

theorem unmarked_slash (pointer more : String) :
    unmarked (pointer ++ "/" ++ more).toList = unmarked pointer.toList ++ '/' :: more.toList := by
  have hlist : (pointer ++ "/" ++ more).toList = pointer.toList ++ '/' :: more.toList := by
    simp [String.toList_append]
  rw [hlist]
  cases pointer.toList with
  | nil => rfl
  | cons c rest =>
      by_cases hc : c = '#'
      · subst hc
        rfl
      · rw [List.cons_append, unmarked_cons hc, unmarked_cons hc, List.cons_append]

/-- What is written behind a pointer after a slash is below it. -/
theorem covers_slash (pointer more : String) : covers pointer (pointer ++ "/" ++ more) = true :=
  covers_iff.mpr ⟨'/' :: more.toList, unmarked_slash pointer more, .inr (.inr rfl)⟩

theorem covers_child (pointer name : String) : covers pointer (child pointer name) = true :=
  covers_slash pointer _

theorem covers_item (pointer : String) (i : Nat) : covers pointer (item pointer i) = true :=
  covers_slash pointer _

/-- What a text starts with up to its first slash, and the slash with all after it,
are determined. -/
theorem append_inj_of_slash {x y r t : List Char} (hx : '/' ∉ x) (hy : '/' ∉ y)
    (hr : r = [] ∨ r.head? = some '/') (ht : t = [] ∨ t.head? = some '/') (h : x ++ r = y ++ t) :
    x = y ∧ r = t := by
  induction x generalizing y with
  | nil =>
      cases y with
      | nil => exact ⟨rfl, h⟩
      | cons c y =>
          rcases hr with rfl | hr
          · exact absurd h (List.cons_ne_nil _ _).symm
          · rw [show r = c :: (y ++ t) from h, List.head?_cons] at hr
            exact absurd (Option.some.inj hr ▸ List.mem_cons_self) hy
  | cons c x ih =>
      cases y with
      | nil =>
          rcases ht with rfl | ht
          · exact absurd h (List.cons_ne_nil _ _)
          · rw [show t = c :: (x ++ r) from h.symm, List.head?_cons] at ht
            exact absurd (Option.some.inj ht ▸ List.mem_cons_self) hx
      | cons d y =>
          obtain ⟨rfl, hrest⟩ := List.cons.inj h
          obtain ⟨rfl, rfl⟩ := ih (fun hc => hx (List.mem_cons_of_mem _ hc))
            (fun hc => hy (List.mem_cons_of_mem _ hc)) hrest
          exact ⟨rfl, rfl⟩

theorem slash_ne_empty (pointer segment : String) : pointer ++ "/" ++ segment ≠ "" := by
  intro h
  have hlength := congrArg String.length h
  have hslash : "/".length = 1 := rfl
  rw [String.length_append, String.length_append, hslash, String.length_empty] at hlength
  omega

theorem ofSegments_slash (segments : List String) :
    (ofSegments segments).toList = [] ∨ (ofSegments segments).toList.head? = some '/' := by
  rw [toList_ofSegments]
  cases segments with
  | nil => exact .inl rfl
  | cons s segments => exact .inr rfl

theorem unmarked_ofSegments (segments : List String) :
    unmarked (ofSegments segments).toList = (ofSegments segments).toList := by
  rw [toList_ofSegments]
  cases segments with
  | nil => rfl
  | cons s segments => rfl

theorem prefix_of_toList_ofSegments {a b : List String} {rest : List Char}
    (hrest : rest = [] ∨ rest.head? = some '/')
    (h : (ofSegments b).toList = (ofSegments a).toList ++ rest) : a <+: b := by
  induction a generalizing b with
  | nil => exact List.nil_prefix
  | cons s a ih =>
      cases b with
      | nil =>
          rw [toList_ofSegments, toList_ofSegments] at h
          exact absurd h (List.cons_ne_nil _ _).symm
      | cons t b =>
          simp only [toList_ofSegments, List.flatMap_cons, List.cons_append,
            List.append_assoc] at h
          simp only [← toList_ofSegments] at h
          have hmore : (ofSegments a).toList ++ rest = [] ∨
              ((ofSegments a).toList ++ rest).head? = some '/' := by
            cases ofSegments_slash a with
            | inl ha =>
                rw [ha, List.nil_append]
                exact hrest
            | inr ha =>
                rw [List.head?_append, ha]
                exact .inr rfl
          obtain ⟨hst, hab⟩ := append_inj_of_slash (slash_not_mem_escapeChars _)
            (slash_not_mem_escapeChars _) (ofSegments_slash b) hmore (List.cons.inj h).2
          have ht : unescapeChars (escapeChars t.toList) = unescapeChars (escapeChars s.toList) :=
            congrArg unescapeChars hst
          rw [unescapeChars_escapeChars, unescapeChars_escapeChars, String.toList_inj] at ht
          rw [ht]
          exact List.cons_prefix_cons.mpr ⟨rfl, ih hab⟩

/-- Between written pointers containment is the prefix order of segments. -/
theorem covers_ofSegments {a b : List String} :
    covers (ofSegments a) (ofSegments b) = true ↔ a <+: b := by
  rw [covers_iff, unmarked_ofSegments, unmarked_ofSegments]
  constructor
  · rintro ⟨rest, heq, hrest | ha | hrest⟩
    · exact prefix_of_toList_ofSegments (.inl hrest) heq
    · have hnil : a = [] := ofSegments_injective (String.toList_inj.mp (ha.trans rfl))
      rw [hnil]
      exact List.nil_prefix
    · exact prefix_of_toList_ofSegments (.inr hrest) heq
  · rintro ⟨rest, rfl⟩
    refine ⟨(ofSegments rest).toList, by rw [ofSegments_append, String.toList_append], ?_⟩
    cases ofSegments_slash rest with
    | inl h => exact .inl h
    | inr h => exact .inr (.inr h)

/-- What follows behind the beginning of a written pointer. -/
theorem after_ofSegments (a b : List String) :
    after (ofSegments a) (ofSegments (a ++ b)) = ofSegments b := by
  rw [after, ofSegments_append, String.toList_append, ← String.length_toList, List.drop_left,
    String.ofList_toList]

/-- Of two pointers that contain a third, one contains the other. -/
theorem covers_total {a b c : String} (ha : covers a c = true) (hb : covers b c = true) :
    covers a b = true ∨ covers b a = true := by
  obtain ⟨r, hr, ha⟩ := covers_iff.mp ha
  obtain ⟨t, ht, hb⟩ := covers_iff.mp hb
  have horder : ∀ {x y : String} {r t u : List Char}, r = u ++ t →
      unmarked y.toList = unmarked x.toList ++ u →
      (r = [] ∨ unmarked x.toList = [] ∨ r.head? = some '/') → covers x y = true := by
    intro x y r t u hu hy h
    refine covers_iff.mpr ⟨u, hy, ?_⟩
    cases u with
    | nil => exact .inl rfl
    | cons d u =>
        subst hu
        rcases h with h | h | h
        · exact absurd h (List.cons_ne_nil _ _)
        · exact .inr (.inl h)
        · exact .inr (.inr h)
  rcases List.append_eq_append_iff.mp (hr.symm.trans ht) with ⟨u, hy, hu⟩ | ⟨u, hy, hu⟩
  · exact .inl (horder hu hy ha)
  · exact .inr (horder hu hy hb)

/-! ## Generic pointers -/

theorem toGeneric_ofSegments (arrays : ArrayTable) (segments : List String) :
    toGeneric arrays (ofSegments segments) = ofSegments (genericSegments arrays [] segments) := by
  rw [toGeneric, segments?_ofSegments]

theorem genericSegments_append (arrays : ArrayTable) (above a b : List String) :
    genericSegments arrays above (a ++ b) =
      genericSegments arrays (genericSegments arrays above a) b := by
  induction a generalizing above with
  | nil => rfl
  | cons segment rest ih => exact ih _

/-- One step below a pointer is one step below its generic form. -/
theorem genericSegments_concat (arrays : ArrayTable) (above a : List String) (segment : String) :
    genericSegments arrays above a <+: genericSegments arrays above (a ++ [segment]) := by
  rw [genericSegments_append]
  exact List.prefix_append _ _

theorem prefix_genericSegments (arrays : ArrayTable) (above segments : List String) :
    above <+: genericSegments arrays above segments := by
  induction segments generalizing above with
  | nil => exact List.prefix_rfl
  | cons segment rest ih => exact (List.prefix_append above _).trans (ih _)

theorem length_genericSegments (arrays : ArrayTable) (above segments : List String) :
    (genericSegments arrays above segments).length = above.length + segments.length := by
  induction segments generalizing above with
  | nil => rfl
  | cons segment rest ih =>
      rw [genericSegments, ih, List.length_append, List.length_singleton, List.length_cons]
      omega

theorem genericSegment_cases (arrays : ArrayTable) (above : List String) (segment : String) :
    genericSegment arrays above segment = wildcard ∨
      genericSegment arrays above segment = segment := by
  unfold genericSegment
  split
  · exact .inr rfl
  · split
    · split
      · exact .inl rfl
      · exact .inr rfl
    · exact .inr rfl

theorem genericSegment_wildcard (arrays : ArrayTable) (above : List String) :
    genericSegment arrays above wildcard = wildcard :=
  (genericSegment_cases arrays above wildcard).elim id id

/-- Segments that are no indices are generic wherever they are. -/
theorem genericSegments_of_keys (arrays : ArrayTable) (above : List String)
    {segments : List String} (h : ∀ key ∈ segments, index? key = none) :
    genericSegments arrays above segments = above ++ segments := by
  induction segments generalizing above with
  | nil => exact (List.append_nil above).symm
  | cons key rest ih =>
      have hkey : genericSegment arrays above key = key := by
        rw [genericSegment, h key List.mem_cons_self]
      rw [genericSegments, hkey, ih _ fun other hm => h other (List.mem_cons_of_mem key hm),
        List.append_assoc, List.singleton_append]

theorem genericSegment_idem (arrays : ArrayTable) (above : List String) (segment : String) :
    genericSegment arrays above (genericSegment arrays above segment) =
      genericSegment arrays above segment := by
  rcases genericSegment_cases arrays above segment with h | h
  · rw [h, genericSegment_wildcard]
  · rw [h, h]

/-- What is generic already stays as it is. -/
theorem genericSegments_of_generic {arrays : ArrayTable} {above segments rest : List String}
    (h : genericSegments arrays above segments = above ++ rest) :
    genericSegments arrays above rest = above ++ rest := by
  induction segments generalizing above rest with
  | nil =>
      obtain rfl : rest = [] := List.append_cancel_left (h.symm.trans (List.append_nil above).symm)
      exact (List.append_nil above).symm
  | cons segment segments ih =>
      have hprefix : above ++ [genericSegment arrays above segment] <+: above ++ rest :=
        h ▸ prefix_genericSegments arrays _ segments
      obtain ⟨below, hbelow⟩ := hprefix
      obtain rfl : genericSegment arrays above segment :: below = rest := by
        rw [List.append_assoc] at hbelow
        exact List.append_cancel_left hbelow
      have hsplit : ∀ key : String, above ++ key :: below = above ++ [key] ++ below := by
        intro key
        rw [List.append_assoc]
        rfl
      rw [hsplit] at h ⊢
      rw [genericSegments, genericSegment_idem]
      exact ih h

theorem toGeneric_cases (arrays : ArrayTable) (pointer : String) :
    Written (toGeneric arrays pointer) ∨
      segments? pointer = none ∧ toGeneric arrays pointer = pointer := by
  unfold toGeneric
  cases h : segments? pointer with
  | none => exact .inr ⟨rfl, rfl⟩
  | some segments => exact .inl ⟨_, rfl⟩

/-- The generic form of a generic pointer is the pointer itself. -/
theorem toGeneric_idem (arrays : ArrayTable) (pointer : String) :
    toGeneric arrays (toGeneric arrays pointer) = toGeneric arrays pointer := by
  cases h : segments? pointer with
  | none =>
      have hsame : toGeneric arrays pointer = pointer := by rw [toGeneric, h]
      rw [hsame, hsame]
  | some segments =>
      have hwritten : toGeneric arrays pointer =
          ofSegments (genericSegments arrays [] segments) := by rw [toGeneric, h]
      rw [hwritten, toGeneric_ofSegments]
      exact congrArg ofSegments (genericSegments_of_generic (List.nil_append _).symm)

/-! ## One segment further -/

/-- What is written behind a pointer after a slash is one more segment. -/
theorem segments?_child {pointer : String} {segments : List String}
    (h : segments? pointer = some segments) (key : String) :
    segments? (child pointer key) = some (segments ++ [key]) := by
  have hlist : (escape key).toList = escapeChars key.toList := String.toList_ofList
  have hpieces : (Text.pieces '/' (escapeChars key.toList)).map
      (fun piece => String.ofList (unescapeChars piece)) = [key] := by
    rw [Text.pieces_of_not_mem (slash_not_mem_escapeChars _), List.map_singleton,
      unescapeChars_escapeChars, String.ofList_toList]
  unfold segments? at h ⊢
  rw [child, unmarked_slash, hlist]
  split at h
  · next hnil =>
      obtain rfl := Option.some.inj h
      rw [hnil, List.nil_append, List.nil_append]
      exact congrArg some hpieces
  · next rest hrest =>
      obtain rfl := Option.some.inj h
      rw [hrest, List.cons_append]
      show some ((Text.pieces '/' (rest ++ '/' :: escapeChars key.toList)).map fun piece =>
        String.ofList (unescapeChars piece)) = _
      rw [Text.pieces_separator, List.map_append, hpieces]
  · cases h

/-- What is written behind a text that is no pointer is no pointer. -/
theorem segments?_child_eq_none {pointer : String} (h : segments? pointer = none) (key : String) :
    segments? (child pointer key) = none := by
  unfold segments? at h ⊢
  rw [child, unmarked_slash]
  cases hchars : unmarked pointer.toList with
  | nil =>
      rw [hchars] at h
      cases h
  | cons c rest =>
      have hslash : c ≠ '/' := by
        rintro rfl
        rw [hchars] at h
        cases h
      rw [List.cons_append]
      split
      · next hnil => cases hnil
      · next hcons => exact absurd (List.cons.inj hcons).1 hslash
      · rfl

theorem item_eq_child (pointer : String) (index : Nat) :
    item pointer index = child pointer (Nat.repr index) := by
  have hescape : escape (Nat.repr index) = Nat.repr index := by
    rw [escape, Nat.toList_repr, escapeChars_toDigits, ← Nat.toList_repr, String.ofList_toList]
  rw [item, child, hescape]

theorem anyItem_eq_child (pointer : String) : anyItem pointer = child pointer wildcard := by
  have hescape : escape wildcard = wildcard := by decide
  rw [anyItem, child, hescape]

/-- The items of a list in generic form are in generic form. -/
theorem toGeneric_anyItem (arrays : ArrayTable) (pointer : String) :
    toGeneric arrays (anyItem (toGeneric arrays pointer)) = anyItem (toGeneric arrays pointer) := by
  cases h : segments? pointer with
  | none =>
      have hsame : toGeneric arrays pointer = pointer := by rw [toGeneric, h]
      rw [hsame, anyItem_eq_child, toGeneric, segments?_child_eq_none h]
  | some segments =>
      have hwritten : toGeneric arrays pointer =
          ofSegments (genericSegments arrays [] segments) := by rw [toGeneric, h]
      have hgeneric : genericSegments arrays [] (genericSegments arrays [] segments) =
          genericSegments arrays [] segments :=
        genericSegments_of_generic (List.nil_append _).symm
      rw [hwritten, anyItem_ofSegments, toGeneric_ofSegments, genericSegments_append, hgeneric,
        genericSegments, genericSegment_wildcard, genericSegments]

/-- What is below a pointer and below its generic form has one generic form. -/
theorem toGeneric_child (arrays : ArrayTable) (pointer key : String) :
    toGeneric arrays (child (toGeneric arrays pointer) key) =
      toGeneric arrays (child pointer key) := by
  cases h : segments? pointer with
  | none =>
      have hsame : toGeneric arrays pointer = pointer := by rw [toGeneric, h]
      rw [hsame]
  | some segments =>
      have hwritten : toGeneric arrays pointer =
          ofSegments (genericSegments arrays [] segments) := by rw [toGeneric, h]
      have hbelow : toGeneric arrays (child pointer key) =
          ofSegments (genericSegments arrays [] (segments ++ [key])) := by
        rw [toGeneric, segments?_child h]
      have hgeneric : genericSegments arrays [] (genericSegments arrays [] segments) =
          genericSegments arrays [] segments :=
        genericSegments_of_generic (List.nil_append _).symm
      rw [hwritten, hbelow, child_ofSegments, toGeneric_ofSegments, genericSegments_append,
        genericSegments_append, hgeneric]

theorem append_child (above pointer key : String) :
    above ++ child pointer key = child (above ++ pointer) key := by
  simp only [child, String.append_assoc]

/-! ## Marked pointers -/

theorem unmarked_mark (pointer : String) : unmarked ("#" ++ pointer).toList = pointer.toList := by
  rw [String.toList_append]
  rfl

theorem unmarked_mark_ofSegments (segments : List String) :
    unmarked ("#" ++ ofSegments segments).toList = unmarked (ofSegments segments).toList := by
  rw [unmarked_mark, unmarked_ofSegments]

theorem mark_covers (segments : List String) (pointer : String) :
    covers ("#" ++ ofSegments segments) pointer = covers (ofSegments segments) pointer := by
  rw [covers, unmarked_mark_ofSegments, covers]

theorem covers_mark (pointer : String) (segments : List String) :
    covers pointer ("#" ++ ofSegments segments) = covers pointer (ofSegments segments) := by
  rw [covers, unmarked_mark_ofSegments, covers]

theorem segments?_mark (segments : List String) :
    segments? ("#" ++ ofSegments segments) = some segments := by
  rw [segments?, unmarked_mark_ofSegments, ← segments?, segments?_ofSegments]

end Pointer

end SchemaForm
