/-
JSON pointers: `/name/0/tags`.

A pointer is a text.  The empty text stands for the whole value, and every
segment is written after a slash with `~` as `~0` and `/` as `~1`.  A leading
`#` marks a pointer within the same document and is passed over when a pointer
is read.  A *generic* pointer has `-` in place of list positions.
-/
import SchemaForm.Number.Basic
import SchemaForm.Text.Pieces

namespace SchemaForm

namespace Pointer

/-- The segment that stands for any list position. -/
def wildcard : String := "-"

/-- The segment's characters as they stand in a pointer. -/
def escapeChars : List Char → List Char
  | [] => []
  | c :: rest =>
      if c = '~' then '~' :: '0' :: escapeChars rest
      else if c = '/' then '~' :: '1' :: escapeChars rest
      else c :: escapeChars rest

/-- The characters that an escaped segment stands for; a `~` before any other
character stands for itself. -/
def unescapeChars : List Char → List Char
  | [] => []
  | '~' :: '0' :: rest => '~' :: unescapeChars rest
  | '~' :: '1' :: rest => '/' :: unescapeChars rest
  | c :: rest => c :: unescapeChars rest

def escape (segment : String) : String := String.ofList (escapeChars segment.toList)

def unescape (segment : String) : String := String.ofList (unescapeChars segment.toList)

/-- The pointer without its document mark. -/
def unmarked : List Char → List Char
  | '#' :: rest => rest
  | cs => cs

/-- The segments of a pointer, or nothing where the text is no pointer. -/
def segments? (pointer : String) : Option (List String) :=
  match unmarked pointer.toList with
  | [] => some []
  | '/' :: rest =>
      some ((Text.pieces '/' rest).map fun piece => String.ofList (unescapeChars piece))
  | _ => none

/-- Whether a text is a pointer. -/
def isPointer (text : String) : Bool :=
  match unmarked text.toList with
  | [] => true
  | c :: _ => c == '/'

/-- The pointer with the given segments. -/
def ofSegments (segments : List String) : String :=
  String.ofList (segments.flatMap fun s => '/' :: escapeChars s.toList)

/-- The pointer with the given segments, `default` in place of empty ones. -/
def ofSegmentsOr (default : String) (segments : List String) : String :=
  ofSegments (segments.map fun s => if s = "" then default else s)

/-- The pointer one segment below. -/
def child (pointer segment : String) : String := pointer ++ "/" ++ escape segment

/-- The pointer of a list position. -/
def item (pointer : String) (index : Nat) : String := pointer ++ "/" ++ Nat.repr index

/-- The generic pointer of the items of a list. -/
def anyItem (pointer : String) : String := pointer ++ "/" ++ wildcard

/-- Writes a pointer in its one spelling, without a mark; other texts stay as they are. -/
def normalize (pointer : String) : String :=
  match segments? pointer with
  | some segments => ofSegments segments
  | none => pointer

/-- The last segment. -/
def last? (pointer : String) : Option String :=
  (segments? pointer).bind List.getLast?

/-- The last but one segment. -/
def beforeLast? (pointer : String) : Option String :=
  (segments? pointer).bind fun segments => segments.dropLast.getLast?

/-- The pointer one segment above. -/
def parent? (pointer : String) : Option String :=
  match segments? pointer with
  | some (s :: rest) => some (ofSegments (s :: rest).dropLast)
  | _ => none

/-- Whether `above` addresses the place of `below` or one that contains it.  The
comparison ends at a segment boundary: `/a/b` does not contain `/a/bc`. -/
def covers (above below : String) : Bool :=
  match List.isPrefixOf? (unmarked above.toList) (unmarked below.toList) with
  | some [] => true
  | some (c :: _) => (unmarked above.toList).isEmpty || c == '/'
  | none => false

/-- What follows in `below` after as many characters as `above` has. -/
def after (above below : String) : String :=
  String.ofList (below.toList.drop above.length)

/-- The text without an ending, if it has it. -/
def dropEnd? (ending text : String) : Option String :=
  (List.isPrefixOf? ending.toList.reverse text.toList.reverse).map fun rest =>
    String.ofList rest.reverse

/-- The text without a beginning, if it has it. -/
def dropStart? (start text : String) : Option String :=
  (List.isPrefixOf? start.toList text.toList).map String.ofList

/-- The pointer of the list that a generic pointer is an item of. -/
def listOfItem? (pointer : String) : Option String := dropEnd? (anyItem "") pointer

/-- Digits read as a number; there has to be one. -/
def numeral? (cs : List Char) : Option Nat :=
  if cs ≠ [] ∧ cs.all Char.isDigit then some (Nat.ofDigitChars 10 cs 0) else none

/-- A segment read as a word: digits, after a plus sign or without one. -/
def index? (segment : String) : Option Nat :=
  let digits :=
    match segment.toList with
    | '+' :: rest => rest
    | cs => cs
  (numeral? digits).filter (· < Number.wordLimit)

/-- A segment read as the position of an item that is there: digits without a
leading zero.  A number that does not fit a word is the position of no item. -/
def position? (segment : String) : Option Nat :=
  match segment.toList with
  | '0' :: _ :: _ => none
  | cs => numeral? cs

/-! ## Reading back what was written -/

theorem unescapeChars_escapeChars (cs : List Char) : unescapeChars (escapeChars cs) = cs := by
  induction cs with
  | nil => rfl
  | cons c rest ih =>
      by_cases ht : c = '~'
      · simp [escapeChars, unescapeChars, ht, ih]
      · by_cases hs : c = '/'
        · simp [escapeChars, unescapeChars, hs, ih]
        · simp [escapeChars, ht, hs, unescapeChars, ih]

theorem slash_not_mem_escapeChars (cs : List Char) : '/' ∉ escapeChars cs := by
  induction cs with
  | nil => simp [escapeChars]
  | cons c rest ih =>
      simp only [escapeChars]
      split
      · simp [ih]
      · split
        · simp [ih]
        · next hs => simp [Ne.symm hs, ih]

/-- The pieces after the first slash of a written pointer are its escaped segments. -/
theorem pieces_written (first : String) (rest : List String) :
    Text.pieces '/' (escapeChars first.toList ++ rest.flatMap fun s => '/' :: escapeChars s.toList)
      = (first :: rest).map fun s => escapeChars s.toList := by
  induction rest generalizing first with
  | nil => simp [Text.pieces_of_not_mem (slash_not_mem_escapeChars _)]
  | cons second rest ih =>
      rw [List.flatMap_cons, List.cons_append, Text.pieces_append (slash_not_mem_escapeChars _), ih]
      rfl

theorem unescape_escape (segment : String) : unescape (escape segment) = segment := by
  simp [unescape, escape, unescapeChars_escapeChars]

/-- Writing segments and reading them gives the segments. -/
theorem segments?_ofSegments (segments : List String) :
    segments? (ofSegments segments) = some segments := by
  cases segments with
  | nil => rfl
  | cons first rest =>
      simp [segments?, ofSegments, unmarked, pieces_written, unescapeChars_escapeChars,
        Function.comp_def]

end Pointer

end SchemaForm
