/-
Generic pointers: list positions written as `-`.

A table tells, for the generic pointer of each array, how many of its leading
positions are fixed ones; an index beyond those is a list position.
-/
import SchemaForm.Pointer.Basic
import SchemaForm.Table

namespace SchemaForm

/-- The number of fixed positions of each array, by generic data pointer. -/
abbrev ArrayTable := Table Nat

namespace Pointer

/-- One segment in generic form, below the place of the given generic segments. -/
def genericSegment (arrays : ArrayTable) (above : List String) (segment : String) : String :=
  match index? segment with
  | none => segment
  | some index =>
      match Table.get? arrays (ofSegments above) with
      | some fixed => if fixed ≤ index then wildcard else segment
      | none => segment

/-- Segments in generic form, from the top down. -/
def genericSegments (arrays : ArrayTable) (above : List String) : List String → List String
  | [] => above
  | segment :: rest =>
      genericSegments arrays (above ++ [genericSegment arrays above segment]) rest

/-- A pointer in generic form; other texts stay as they are. -/
def toGeneric (arrays : ArrayTable) (pointer : String) : String :=
  match segments? pointer with
  | some segments => ofSegments (genericSegments arrays [] segments)
  | none => pointer

/-- A layout pointer with `-` for every numeric segment. -/
def genericLayout (pointer : String) : String :=
  String.ofList <| List.intercalate ['/'] <|
    (Text.pieces '/' pointer.toList).map fun piece =>
      if !piece.isEmpty && piece.all Char.isDigit then ['-'] else piece

end Pointer

end SchemaForm
