/-
How segments are spelled in pointers.

Escaping is two replacements one after the other, of `~` and then of `/`, and reading takes them
back in the opposite order: the other way round, `~01` would be read as a slash.  `escape` and
`unescape` do both in one pass over the characters (`escape_eq_replace`, `unescape_eq_replace`).
A pointer is read piece by piece (`Json.reach?`, `at?_eq_reach?`), and so every list of segments is
read back from its spelling, and a pointer and its one spelling lead to the same place
(`spelled_losslessly`).
-/
import SchemaForm.Pointer.Access
import SchemaForm.Proofs.Pointer.Segments

namespace SchemaForm

namespace Text

variable {old new cs rest : List Char} {a b c d : Char}

/-- The characters with every occurrence of `old` replaced, from left to right and none within
another; `old` is not empty. -/
def replaceChars (old new : List Char) : List Char → List Char
  | [] => []
  | c :: rest =>
      if old.isPrefixOf (c :: rest) then new ++ replaceChars old new (rest.drop (old.length - 1))
      else c :: replaceChars old new rest
termination_by cs => cs.length
decreasing_by
  · rw [List.length_drop, List.length_cons]
    omega
  · exact Nat.lt_succ_self _

/-- The text with every occurrence of `old` replaced. -/
def replace (old new text : String) : String :=
  String.ofList (replaceChars old.toList new.toList text.toList)

theorem replaceChars_nil : replaceChars old new [] = [] := by
  rw [replaceChars]

/-- One character is replaced wherever it stands. -/
theorem replaceChars_char :
    replaceChars [a] new (c :: rest) =
      if a = c then new ++ replaceChars [a] new rest else c :: replaceChars [a] new rest := by
  rw [replaceChars]
  simp

/-- Two characters are replaced where they stand together. -/
theorem replaceChars_two :
    replaceChars [a, b] new (a :: b :: rest) = new ++ replaceChars [a, b] new rest := by
  rw [replaceChars]
  simp

/-- Where they do not, the first one is kept like any other. -/
theorem replaceChars_two_of_ne (h : a = c → rest.head? ≠ some b) :
    replaceChars [a, b] new (c :: rest) = c :: replaceChars [a, b] new rest := by
  rw [replaceChars, if_neg]
  cases rest with
  | nil => simp
  | cons d rest =>
      simp only [List.isPrefixOf, Bool.and_true, Bool.and_eq_true, beq_iff_eq]
      rintro ⟨hc, hd⟩
      exact h hc (congrArg some hd.symm)

/-- The result begins like the text or like the replacement. -/
theorem head?_replaceChars_two (hcs : cs.head? ≠ some c) (hd : d ≠ c) :
    (replaceChars [a, b] [d] cs).head? ≠ some c := by
  cases cs with
  | nil => simp [replaceChars_nil]
  | cons first rest =>
      rw [replaceChars]
      split
      · simpa using hd
      · exact hcs

end Text

namespace Pointer

open Text

theorem escapeChars_eq_replaceChars (cs : List Char) :
    escapeChars cs = replaceChars ['/'] ['~', '1'] (replaceChars ['~'] ['~', '0'] cs) := by
  induction cs with
  | nil => rw [replaceChars_nil, replaceChars_nil, escapeChars]
  | cons c rest ih =>
      by_cases ht : c = '~'
      · simp [escapeChars, replaceChars_char, ht, ih]
      · by_cases hs : c = '/'
        · simp [escapeChars, replaceChars_char, hs, ih]
        · simp [escapeChars, replaceChars_char, ht, hs, Ne.symm ht, Ne.symm hs, ih]

/-- Escaping is two replacements, of the mark of escapes before the slash. -/
theorem escape_eq_replace (segment : String) :
    escape segment = replace "/" "~1" (replace "~" "~0" segment) := by
  simp [escape, escapeChars_eq_replaceChars, replace]

theorem unescapeChars_eq_replaceChars (cs : List Char) :
    unescapeChars cs = replaceChars ['~', '0'] ['~'] (replaceChars ['~', '1'] ['/'] cs) := by
  induction cs using unescapeChars.induct with
  | case1 => rw [replaceChars_nil, replaceChars_nil, unescapeChars]
  | case2 rest ih =>
      have hinner : replaceChars ['~', '1'] ['/'] ('~' :: '0' :: rest) =
          '~' :: '0' :: replaceChars ['~', '1'] ['/'] rest := by
        rw [replaceChars_two_of_ne (by simp), replaceChars_two_of_ne (by simp)]
      rw [unescapeChars, hinner, replaceChars_two, List.singleton_append, ih]
  | case3 rest ih =>
      rw [unescapeChars, replaceChars_two, List.singleton_append,
        replaceChars_two_of_ne (by simp), ih]
  | case4 c rest hzero hone ih =>
      have hkept : '~' = c → rest.head? ≠ some '0' ∧ rest.head? ≠ some '1' := by
        intro hc
        constructor
        · intro hhead
          obtain ⟨more, hmore⟩ := List.head?_eq_some_iff.mp hhead
          exact hzero more hc.symm hmore
        · intro hhead
          obtain ⟨more, hmore⟩ := List.head?_eq_some_iff.mp hhead
          exact hone more hc.symm hmore
      rw [unescapeChars.eq_4 c rest hzero hone, replaceChars_two_of_ne fun hc => (hkept hc).2,
        replaceChars_two_of_ne fun hc => head?_replaceChars_two (hkept hc).1 (by decide), ih]

/-- Reading back is the two replacements of escaping, undone in the opposite order. -/
theorem unescape_eq_replace (segment : String) :
    unescape segment = replace "~0" "~" (replace "~1" "/" segment) := by
  simp [unescape, unescapeChars_eq_replaceChars, replace]

end Pointer

namespace Json

/-- What a reader finds who takes a pointer without a mark, splits it at the slashes and goes one
step down for each piece behind the first. -/
def reach? (j : Json) (text : String) : Option Json :=
  match text.toList with
  | [] => some j
  | '/' :: _ =>
      ((Text.pieces '/' text.toList).tail.map fun piece =>
        Text.replace "~0" "~" (Text.replace "~1" "/" (String.ofList piece))).foldlM step? j
  | _ => none

theorem foldlM_step? (j : Json) (segments : List String) :
    segments.foldlM step? j = j.follow? segments := by
  induction segments generalizing j with
  | nil => rfl
  | cons key rest ih =>
      rw [List.foldlM_cons, follow?]
      exact Option.bind_congr fun next _ => ih next

theorem at?_eq_reach? (j : Json) (pointer : String) :
    j.at? pointer = j.reach? (String.ofList (Pointer.unmarked pointer.toList)) := by
  unfold at? Pointer.segments? reach?
  rw [String.toList_ofList]
  cases Pointer.unmarked pointer.toList with
  | nil => rfl
  | cons c rest =>
      by_cases hc : c = '/'
      · subst hc
        have hpieces : (Text.pieces '/' ('/' :: rest)).tail = Text.pieces '/' rest := by
          have happend := Text.pieces_append (List.not_mem_nil (a := '/')) rest
          rw [List.nil_append] at happend
          rw [happend, List.tail_cons]
        rw [hpieces, foldlM_step?]
        simp only [← Pointer.unescape_eq_replace, Pointer.unescape, String.toList_ofList,
          Option.bind_some]
      · simp [hc]

end Json

namespace Pointer

theorem ofSegments_eq_join (segments : List String) :
    ofSegments segments = String.join (segments.map fun s => "/" ++ escape s) := by
  rw [← String.toList_inj, toList_ofSegments, String.toList_join, List.flatMap_map]
  simp [escape]

/-- **Spelling segments loses nothing.**  Each segment stands behind a slash with its tildes and
then its slashes replaced, and what was written is read back.  What can be read is a pointer, whose
one spelling is read like it and is its own; and a reader who goes down piece by piece finds the
same under both. -/
theorem spelled_losslessly :
    (∀ segments, ofSegments segments = String.join (segments.map fun s =>
      "/" ++ Text.replace "/" "~1" (Text.replace "~" "~0" s))) ∧
    (∀ segments, segments? (ofSegments segments) = some segments) ∧
    (∀ text, (segments? text).isSome = isPointer text) ∧
    (∀ text, normalize (normalize text) = normalize text) ∧
    (∀ text, segments? (normalize text) = segments? text) ∧
    (∀ (j : Json) text, j.at? text = j.reach? (String.ofList (unmarked text.toList))) ∧
    ∀ (j : Json) text, j.at? (normalize text) = j.at? text := by
  refine ⟨?_, segments?_ofSegments, segments?_isSome, normalize_normalize, segments?_normalize,
    Json.at?_eq_reach?, ?_⟩
  · intro segments
    simp only [ofSegments_eq_join, escape_eq_replace]
  · intro j text
    rw [Json.at?, segments?_normalize, ← Json.at?]

/-- A mark of an escape that is escaped itself begins no escape. -/
example : segments? "/~01/~1~0" = some ["~1", "/~"] := by decide

end Pointer

end SchemaForm
