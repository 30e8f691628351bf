/-
Dotted paths.

A path is a name with parts behind it, each a name behind a point or brackets around digits,
nothing or a quoted text.  It is read as the names, digits and texts that it was written with
(`DottedPath.ofPath_text`): a name stays unfinished until the next part or the end, and brackets are
closed by the first closing one.  Whatever text is read, the pointer that it stands for is
canonical, names no empty segment and stands for itself (`paths_read`).
-/
import SchemaForm.Pointer.ObjectPath
import SchemaForm.Proofs.Pointer.Order

namespace SchemaForm

namespace Text

theorem dropWhile_isBlank {cs : List Char} (h : ∀ c ∈ cs.head?, isBlank c = false) :
    cs.dropWhile isBlank = cs := by
  cases cs with
  | nil => rfl
  | cons c rest =>
      rw [List.dropWhile_cons_of_neg]
      rw [h c rfl]
      exact Bool.false_ne_true

/-- A text that neither begins nor ends with a blank is left as it is. -/
theorem trim_eq_self {cs : List Char} (hfirst : ∀ c ∈ cs.head?, isBlank c = false)
    (hlast : ∀ c ∈ cs.getLast?, isBlank c = false) : trim cs = cs := by
  rw [← List.head?_reverse] at hlast
  rw [trim, dropWhile_isBlank hfirst, dropWhile_isBlank hlast, List.reverse_reverse]

theorem isBlank_of_isDigit {c : Char} (h : c.isDigit = true) : isBlank c = false := by
  obtain ⟨d, hd, rfl⟩ := Pointer.digitChar_of_isDigit h
  interval_cases d <;> rfl

end Text

namespace Pointer

/-- A part of a dotted path behind the name that it begins with. -/
inductive PathPart where
  /-- A name behind a point. -/
  | name (text : String)
  /-- Brackets around digits, or around nothing. -/
  | position (digits : String)
  /-- Brackets around a text between quotes. -/
  | quoted (quote : Char) (text : String)

/-- A name that can stand in a dotted path. -/
def IsName (name : String) : Prop := name ≠ "" ∧ '.' ∉ name.toList ∧ '[' ∉ name.toList

instance (name : String) : Decidable (IsName name) :=
  inferInstanceAs (Decidable (_ ∧ _))

namespace PathPart

def chars : PathPart → List Char
  | .name text => '.' :: text.toList
  | .position digits => '[' :: (digits.toList ++ [']'])
  | .quoted quote text => '[' :: (quote :: (text.toList ++ [quote]) ++ [']'])

/-- The segment that the part stands for. -/
def segment : PathPart → String
  | .name text => text
  | .position digits => digits
  | .quoted _ text => text

def WellFormed : PathPart → Prop
  | .name text => IsName text
  | .position digits => digits.toList.all Char.isDigit = true
  | .quoted quote text => (quote = '\'' ∨ quote = '"') ∧ ']' ∉ text.toList

instance : (part : PathPart) → Decidable part.WellFormed
  | .name text => inferInstanceAs (Decidable (IsName text))
  | .position digits => inferInstanceAs (Decidable (digits.toList.all Char.isDigit = true))
  | .quoted quote text =>
      inferInstanceAs (Decidable ((quote = '\'' ∨ quote = '"') ∧ ']' ∉ text.toList))

end PathPart

/-- A dotted path taken apart. -/
structure DottedPath where
  first : String
  parts : List PathPart

namespace DottedPath

def text (p : DottedPath) : String :=
  String.ofList (p.first.toList ++ p.parts.flatMap PathPart.chars)

def segments (p : DottedPath) : List String := p.first :: p.parts.map PathPart.segment

/-- The path begins with a name, and not like a pointer. -/
structure WellFormed (p : DottedPath) : Prop where
  name : IsName p.first
  slash : p.first.toList.head? ≠ some '/'
  mark : p.first.toList.head? ≠ some '#'
  parts : ∀ part ∈ p.parts, part.WellFormed

instance (p : DottedPath) : Decidable p.WellFormed :=
  decidable_of_iff (IsName p.first ∧ p.first.toList.head? ≠ some '/' ∧
      p.first.toList.head? ≠ some '#' ∧ ∀ part ∈ p.parts, part.WellFormed)
    ⟨fun ⟨hname, hslash, hmark, hparts⟩ => ⟨hname, hslash, hmark, hparts⟩,
      fun h => ⟨h.name, h.slash, h.mark, h.parts⟩⟩

end DottedPath

variable {name : String} {inner : List Char}

/-! ## Names -/

theorem named_reverse (h : name ≠ "") : named name.toList.reverse = [name] := by
  have hchars : name.toList.reverse.isEmpty = false := by
    rw [List.isEmpty_reverse, List.isEmpty_eq_false_iff]
    exact String.toList_eq_nil_iff.not.mpr h
  rw [named, hchars, List.reverse_reverse, String.ofList_toList]
  rfl

/-- The characters of a name are taken into the one that is being read. -/
theorem pathFrom_name {cs : List Char} (hpoint : '.' ∉ cs) (hopen : '[' ∉ cs)
    (name rest : List Char) : pathFrom name (cs ++ rest) = pathFrom (cs.reverse ++ name) rest := by
  induction cs generalizing name with
  | nil => rfl
  | cons c cs ih =>
      simp only [List.mem_cons, not_or] at hpoint hopen
      rw [List.cons_append, pathFrom, if_neg (Ne.symm hpoint.1), if_neg (Ne.symm hopen.1),
        ih hpoint.2 hopen.2, List.reverse_cons, List.append_assoc]
      rfl

/-! ## Brackets -/

/-- What stands up to the first closing bracket is taken in as it is. -/
theorem bracketFrom_inner (h : ']' ∉ inner) (before rest : List Char) :
    bracketFrom before (inner ++ ']' :: rest) =
      bracketed (before.reverse ++ inner) :: pathFrom [] rest := by
  induction inner generalizing before with
  | nil => rw [List.nil_append, bracketFrom, if_pos rfl, List.append_nil]
  | cons c inner ih =>
      simp only [List.mem_cons, not_or] at h
      rw [List.cons_append, bracketFrom, if_neg (Ne.symm h.1), ih h.2, List.reverse_cons,
        List.append_assoc]
      rfl

/-- Brackets end the name before them. -/
theorem pathFrom_brackets (h : ']' ∉ inner) (name rest : List Char) :
    pathFrom name ('[' :: (inner ++ [']']) ++ rest) =
      named name ++ bracketed inner :: pathFrom [] rest := by
  have hopen : ('[' : Char) ≠ '.' := by decide
  rw [List.cons_append, pathFrom, if_neg hopen, if_pos rfl, List.append_assoc]
  exact congrArg (named name ++ ·) (bracketFrom_inner h [] rest)

theorem quoted?_of_ne {quote c : Char} (h : c ≠ quote) (rest : List Char) :
    quoted? quote (c :: rest) = none := by
  rw [quoted?, if_neg fun hboth => h hboth.1]

theorem quoted?_quoted (quote : Char) (text : List Char) :
    quoted? quote (quote :: (text ++ [quote])) = some text := by
  rw [quoted?, if_pos ⟨rfl, List.getLast?_concat⟩, List.dropLast_concat]

theorem bracketed_digits (h : ∀ c ∈ inner, c.isDigit = true) :
    bracketed inner = String.ofList inner := by
  have htrim : Text.trim inner = inner :=
    Text.trim_eq_self (fun c hc => Text.isBlank_of_isDigit (h c (List.mem_of_mem_head? hc)))
      fun c hc => Text.isBlank_of_isDigit (h c (List.mem_of_getLast? hc))
  rw [bracketed, htrim]
  cases inner with
  | nil => rfl
  | cons c rest =>
      have hdigit := h c List.mem_cons_self
      have hsingle : c ≠ '\'' := by
        rintro rfl
        cases hdigit
      have hdouble : c ≠ '"' := by
        rintro rfl
        cases hdigit
      rw [quoted?_of_ne hsingle, quoted?_of_ne hdouble]
      rfl

/-- Quotes keep blanks and further quotes in the text. -/
theorem bracketed_quoted {quote : Char} (h : quote = '\'' ∨ quote = '"') (text : List Char) :
    bracketed (quote :: (text ++ [quote])) = String.ofList text := by
  have hblank : Text.isBlank quote = false := by rcases h with rfl | rfl <;> rfl
  have htrim : Text.trim (quote :: (text ++ [quote])) = quote :: (text ++ [quote]) := by
    refine Text.trim_eq_self (fun c hc => ?_) fun c hc => ?_
    · rwa [← Option.some.inj hc]
    · rw [← List.cons_append, List.getLast?_concat] at hc
      rwa [← Option.some.inj hc]
  rw [bracketed, htrim]
  rcases h with rfl | rfl
  · rw [quoted?_quoted]
    rfl
  · rw [quoted?_of_ne (by decide), quoted?_quoted]
    rfl

/-! ## Paths -/

/-- The parts are read one after the other, behind the name that is being read. -/
theorem pathFrom_parts {parts : List PathPart} (h : ∀ part ∈ parts, part.WellFormed)
    (name : List Char) :
    pathFrom name (parts.flatMap PathPart.chars) = named name ++ parts.map PathPart.segment := by
  induction parts generalizing name with
  | nil => exact (List.append_nil _).symm
  | cons part parts ih =>
      have hpart := h part List.mem_cons_self
      have hrest := ih fun other hother => h other (List.mem_cons_of_mem _ hother)
      rw [List.flatMap_cons, List.map_cons]
      cases part with
      | name next =>
          obtain ⟨hne, hpoint, hopen⟩ := hpart
          have hread := pathFrom_name hpoint hopen [] (parts.flatMap PathPart.chars)
          rw [List.append_nil] at hread
          rw [PathPart.chars, List.cons_append, pathFrom, if_pos rfl, hread, hrest,
            named_reverse hne]
          rfl
      | position digits =>
          have hdigits : ∀ c ∈ digits.toList, c.isDigit = true := List.all_eq_true.mp hpart
          have hclose : ']' ∉ digits.toList := by
            intro hmem
            cases hdigits _ hmem
          rw [PathPart.chars, pathFrom_brackets hclose, bracketed_digits hdigits, hrest,
            String.ofList_toList]
          rfl
      | quoted quote text =>
          obtain ⟨hquote, htext⟩ := hpart
          have hclose : ']' ∉ quote :: (text.toList ++ [quote]) := by
            have hne : quote ≠ ']' := by rcases hquote with rfl | rfl <;> decide
            simp [htext, Ne.symm hne]
          rw [PathPart.chars, pathFrom_brackets hclose, bracketed_quoted hquote, hrest,
            String.ofList_toList]
          rfl

/-- A text that begins neither with a slash nor with the mark is no pointer. -/
theorem segments?_eq_none {text : String} (hne : text ≠ "")
    (hslash : text.toList.head? ≠ some '/') (hmark : text.toList.head? ≠ some '#') :
    segments? text = none := by
  unfold segments?
  cases hchars : text.toList with
  | nil => exact absurd (String.toList_eq_nil_iff.mp hchars) hne
  | cons c rest =>
      rw [hchars, List.head?_cons] at hslash hmark
      rw [unmarked_cons fun hc => hmark (congrArg some hc)]
      split
      · next he => cases he
      · next he => exact absurd (congrArg some (List.cons.inj he).1) hslash
      · rfl

namespace DottedPath

variable {p : DottedPath}

theorem head?_text (h : p.first ≠ "") : p.text.toList.head? = p.first.toList.head? := by
  rw [text, String.toList_ofList,
    List.head?_append_of_ne_nil _ (String.toList_eq_nil_iff.not.mpr h)]

theorem segments?_text (h : p.WellFormed) : segments? p.text = none := by
  have hhead := head?_text h.name.1
  refine segments?_eq_none (fun he => ?_) (hhead ▸ h.slash) (hhead ▸ h.mark)
  rw [he] at hhead
  exact h.name.1 (String.toList_eq_nil_iff.mp (List.head?_eq_none_iff.mp hhead.symm))

/-- A path is read as it was written. -/
theorem ofPath_text (h : p.WellFormed) : ofPath p.text = p.segments := by
  obtain ⟨hne, hpoint, hopen⟩ := h.name
  rw [ofPath, segments?_text h]
  dsimp only
  rw [text, String.toList_ofList, pathFrom_name hpoint hopen, List.append_nil,
    pathFrom_parts h.parts, named_reverse hne]
  rfl

end DottedPath

/-- The empty segments are the wildcards of a generic path. -/
theorem segments?_genericOfPath (path : String) : segments? (genericOfPath path) =
    some ((ofPath path).map fun s => if s = "" then wildcard else s) :=
  segments?_ofSegments _

theorem ne_empty_of_mem_genericOfPath {path : String} {segments : List String}
    (h : segments? (genericOfPath path) = some segments) : "" ∉ segments := by
  rw [segments?_genericOfPath] at h
  obtain rfl := Option.some.inj h
  intro hmem
  obtain ⟨s, -, hs⟩ := List.mem_map.mp hmem
  split at hs
  · exact absurd hs (by decide)
  · next hne => exact hne hs

theorem genericOfPath_genericOfPath (path : String) :
    genericOfPath (genericOfPath path) = genericOfPath path := by
  have hread := segments?_genericOfPath path
  have hkept : ∀ s ∈ (ofPath path).map fun s => if s = "" then wildcard else s,
      (if s = "" then wildcard else s) = s := by
    intro s hs
    refine if_neg fun he => ?_
    exact ne_empty_of_mem_genericOfPath hread (he ▸ hs)
  rw [genericOfPath, ofPath, hread, ofSegmentsOr, List.map_congr_left hkept, List.map_id']
  rfl

/-- **Dotted paths.**  Every text stands for a canonical pointer without empty segments, which
stands for itself; and a path that is a name with further names behind points, digits or nothing in
brackets, and quoted texts in brackets is read as these, in order. -/
theorem paths_read :
    (∀ path, Canonical (genericOfPath path) ∧
      (∀ segments, segments? (genericOfPath path) = some segments → "" ∉ segments) ∧
      genericOfPath (genericOfPath path) = genericOfPath path) ∧
    ∀ p : DottedPath, p.WellFormed → ofPath p.text = p.segments := by
  refine ⟨fun path => ⟨?_, ?_, genericOfPath_genericOfPath path⟩, fun _ => DottedPath.ofPath_text⟩
  · exact canonical_iff.mpr ⟨_, rfl⟩
  · exact fun _ => ne_empty_of_mem_genericOfPath

/-- A path with a part of each kind. -/
def rowsPath : DottedPath where
  first := "rows"
  parts := [.position "", .name "-x", .quoted '"' " it's a.b[ ", .position "12"]

theorem paths_read_rows :
    rowsPath.WellFormed ∧ rowsPath.text = "rows[].-x[\" it's a.b[ \"][12]" ∧
      ofPath rowsPath.text = ["rows", "", "-x", " it's a.b[ ", "12"] := by
  have hformed : rowsPath.WellFormed := by decide +kernel
  exact ⟨hformed, by decide +kernel, paths_read.2 rowsPath hformed⟩

end Pointer

end SchemaForm
