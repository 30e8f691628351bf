/-
Layout pointers by depth.

The generic layout pointer of a node is a matter of its depth alone: a wildcard at the
top of a layout, and `items` and one more wildcard for every level below.  `level n` is
the one at depth `n`.  The pointers at two depths differ by a descent,

    level (n + k) = level n ++ descent k

so that continuing a pointer from a site adds depths, and taking the beginning of a
pointer away subtracts them.  The generic form of the place of an entry is the level of
its depth.
-/
import Mathlib.Data.List.Basic
import SchemaForm.Pointer.Generic

namespace SchemaForm

namespace Text

theorem piecesFrom_separator (separator : Char) (cs piece rest : List Char) :
    piecesFrom separator piece (cs ++ separator :: rest) =
      piecesFrom separator piece cs ++ pieces separator rest := by
  induction cs generalizing piece with
  | nil => simp [piecesFrom, pieces]
  | cons c cs ih =>
      simp only [List.cons_append, piecesFrom]
      split
      · rw [ih, List.cons_append]
      · exact ih _

/-- The pieces before a separator and the pieces after it. -/
theorem pieces_separator (separator : Char) (cs rest : List Char) :
    pieces separator (cs ++ separator :: rest) = pieces separator cs ++ pieces separator rest :=
  piecesFrom_separator separator cs [] rest

theorem pieces_ne_nil (separator : Char) (cs : List Char) : pieces separator cs ≠ [] := by
  have hfrom : ∀ piece, piecesFrom separator piece cs ≠ [] := by
    induction cs with
    | nil => exact fun _ => List.cons_ne_nil _ _
    | cons c cs ih =>
        intro piece
        simp only [piecesFrom]
        split
        · exact List.cons_ne_nil _ _
        · exact ih _
  exact hfrom []

end Text

namespace Pointer

/-- The generic layout pointer of the nodes at a depth. -/
def level : Nat → String
  | 0 => anyItem ""
  | n + 1 => anyItem (level n ++ "/items")

/-- What follows in the pointer of a node so many levels below another one. -/
def descent : Nat → String
  | 0 => ""
  | k + 1 => "/items" ++ level k

theorem anyItem_append (a b : String) : anyItem (a ++ b) = a ++ anyItem b := by
  simp only [anyItem, String.append_assoc]

theorem anyItem_eq_append (pointer : String) : anyItem pointer = pointer ++ anyItem "" := by
  rw [← anyItem_append, String.append_empty]

theorem level_add (n k : Nat) : level (n + k) = level n ++ descent k := by
  induction k with
  | zero => exact String.append_empty.symm
  | succ k ih =>
      have hstep : level (n + (k + 1)) = anyItem (level n ++ descent k ++ "/items") :=
        congrArg (fun pointer => anyItem (pointer ++ "/items")) ih
      rw [hstep, String.append_assoc, anyItem_append]
      cases k with
      | zero => rfl
      | succ k => simp only [descent, level, anyItem, String.append_assoc]

theorem length_level (n : Nat) : (level n).length = 8 * n + 2 := by
  induction n with
  | zero => rfl
  | succ n ih =>
      have hitems : "/items".length = 6 := rfl
      have hslash : "/".length = 1 := rfl
      have hwildcard : wildcard.length = 1 := rfl
      simp only [level, anyItem, String.length_append, ih, hitems, hslash, hwildcard]
      omega

theorem level_injective : Function.Injective level := by
  intro n m h
  have hlength := congrArg String.length h
  rw [length_level, length_level] at hlength
  omega

/-! ## Beginnings and endings -/

theorem dropStart?_append (start rest : String) : dropStart? start (start ++ rest) = some rest := by
  rw [dropStart?, String.toList_append, List.isPrefixOf?_eq_some_iff_append_eq.mpr rfl,
    Option.map_some, String.ofList_toList]

theorem dropStart?_of_length {start text : String} (h : text.length < start.length) :
    dropStart? start text = none := by
  rw [dropStart?, Option.map_eq_none_iff]
  cases hrest : List.isPrefixOf? start.toList text.toList with
  | none => rfl
  | some rest =>
      have hlength := congrArg List.length (List.isPrefixOf?_eq_some_iff_append_eq.mp hrest)
      rw [List.length_append, String.length_toList, String.length_toList] at hlength
      omega

/-- A level below the start of a level is what the descent to it is. -/
theorem dropStart?_level (n k : Nat) : dropStart? (level n) (level (n + k)) = some (descent k) := by
  rw [level_add]
  exact dropStart?_append _ _

/-- A level at or above another one does not start with it. -/
theorem dropStart?_level_of_lt {n m : Nat} (h : m < n) :
    dropStart? (level n) (level m) = none := by
  refine dropStart?_of_length ?_
  rw [length_level, length_level]
  omega

theorem dropStart?_items (n k : Nat) :
    dropStart? (level n ++ "/items") (level (n + (k + 1))) = some (level k) := by
  rw [level_add, descent, ← String.append_assoc]
  exact dropStart?_append _ _

theorem dropEnd?_append (text ending : String) : dropEnd? ending (text ++ ending) = some text := by
  rw [dropEnd?, String.toList_append, List.reverse_append,
    List.isPrefixOf?_eq_some_iff_append_eq.mpr rfl, Option.map_some, List.reverse_reverse,
    String.ofList_toList]

theorem dropEnd?_anyItem (pointer : String) :
    dropEnd? wildcard (anyItem pointer) = some (pointer ++ "/") := by
  have hwildcard : anyItem pointer = pointer ++ "/" ++ wildcard := by
    rw [anyItem_eq_append, String.append_assoc]
    rfl
  rw [hwildcard, dropEnd?_append]

theorem listOfItem?_anyItem (pointer : String) : listOfItem? (anyItem pointer) = some pointer := by
  rw [listOfItem?, anyItem_eq_append pointer, dropEnd?_append]

/-! ## Places of entries -/

/-- A piece of a layout pointer in generic form. -/
def genericPiece (piece : List Char) : List Char :=
  if !piece.isEmpty && piece.all Char.isDigit then ['-'] else piece

theorem intercalate_concat (separator last : List Char) {xs : List (List Char)} (h : xs ≠ []) :
    List.intercalate separator (xs ++ [last]) =
      List.intercalate separator xs ++ separator ++ last := by
  induction xs with
  | nil => exact absurd rfl h
  | cons x xs ih =>
      cases xs with
      | nil => simp [List.intercalate_cons_cons]
      | cons y ys =>
          have hne : y :: ys ≠ [] := List.cons_ne_nil _ _
          have hne' : y :: ys ++ [last] ≠ [] := List.cons_ne_nil _ _
          rw [List.cons_append, List.intercalate_cons_of_ne_nil hne', ih hne,
            List.intercalate_cons_of_ne_nil hne]
          simp only [List.append_assoc]

/-- One piece more in a pointer is one piece more in its generic form. -/
theorem genericLayout_slash (pointer : String) {piece : String} (h : '/' ∉ piece.toList) :
    genericLayout (pointer ++ "/" ++ piece) =
      genericLayout pointer ++ "/" ++ String.ofList (genericPiece piece.toList) := by
  have hlist : (pointer ++ "/" ++ piece).toList = pointer.toList ++ '/' :: piece.toList := by
    simp [String.toList_append]
  have hne : (Text.pieces '/' pointer.toList).map genericPiece ≠ [] := by
    rw [Ne, List.map_eq_nil_iff]
    exact Text.pieces_ne_nil '/' pointer.toList
  rw [← String.toList_inj, genericLayout, hlist, Text.pieces_separator, Text.pieces_of_not_mem h]
  change (String.ofList (List.intercalate ['/'] ((Text.pieces '/' pointer.toList ++
    [piece.toList]).map genericPiece))).toList = _
  rw [List.map_append, List.map_singleton, intercalate_concat _ _ hne]
  simp only [String.toList_append, String.toList_ofList, genericLayout]
  rfl

theorem genericLayout_items (pointer : String) :
    genericLayout (pointer ++ "/items") = genericLayout pointer ++ "/items" := by
  have hpiece : String.ofList (genericPiece "items".toList) = "items" := by decide
  have hitems : ∀ text : String, text ++ "/items" = text ++ "/" ++ "items" := by
    intro text
    rw [String.append_assoc]
    rfl
  rw [hitems, genericLayout_slash pointer (by decide), hpiece, hitems]

/-- The generic form of a position is any position. -/
theorem genericLayout_item (pointer : String) (index : Nat) :
    genericLayout (item pointer index) = anyItem (genericLayout pointer) := by
  have hdigits : ∀ c ∈ (Nat.repr index).toList, c.isDigit = true := by
    intro c hc
    rw [Nat.toList_repr] at hc
    exact Nat.isDigit_of_mem_toDigits (by decide) (by decide) hc
  have hpiece : genericPiece (Nat.repr index).toList = ['-'] := by
    rw [genericPiece, List.all_eq_true.mpr hdigits, Bool.and_true]
    have hne : (Nat.repr index).toList ≠ [] := by
      rw [Nat.toList_repr]
      exact Nat.toDigits_ne_nil
    rw [List.isEmpty_eq_false_iff.mpr hne]
    rfl
  have hslash : '/' ∉ (Nat.repr index).toList := by
    intro hmem
    exact absurd (hdigits _ hmem) (by decide)
  rw [item, genericLayout_slash pointer hslash, hpiece]
  rfl

theorem genericLayout_empty : genericLayout "" = "" := by decide

theorem genericLayout_level (n : Nat) : genericLayout (level n) = level n := by
  have hwildcard : '/' ∉ wildcard.toList := by decide
  have hpiece : String.ofList (genericPiece wildcard.toList) = wildcard := by decide
  induction n with
  | zero => decide
  | succ n ih =>
      rw [level, anyItem, genericLayout_slash _ hwildcard, genericLayout_items, ih, hpiece]

end Pointer

end SchemaForm
