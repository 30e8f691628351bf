/-
The pieces of a text between separators.
-/

namespace SchemaForm

namespace Text

/-- The pieces between separators; `piece` holds the piece read so far, last first. -/
def piecesFrom (separator : Char) (piece : List Char) : List Char → List (List Char)
  | [] => [piece.reverse]
  | c :: rest =>
      if c = separator then piece.reverse :: piecesFrom separator [] rest
      else piecesFrom separator (c :: piece) rest

/-- The pieces between separators, one more than there are separators. -/
def pieces (separator : Char) (cs : List Char) : List (List Char) := piecesFrom separator [] cs

theorem piecesFrom_append {separator : Char} {cs : List Char} (h : separator ∉ cs)
    (piece rest : List Char) :
    piecesFrom separator piece (cs ++ rest) = piecesFrom separator (cs.reverse ++ piece) rest := by
  induction cs generalizing piece with
  | nil => rfl
  | cons c cs ih =>
      simp only [List.mem_cons, not_or] at h
      simp [piecesFrom, Ne.symm h.1, ih h.2]

/-- A text without the separator is one piece. -/
theorem pieces_of_not_mem {separator : Char} {cs : List Char} (h : separator ∉ cs) :
    pieces separator cs = [cs] := by
  have := piecesFrom_append h [] []
  simpa [pieces, piecesFrom] using this

/-- What stands before the first separator is the first piece. -/
theorem pieces_append {separator : Char} {cs : List Char} (h : separator ∉ cs)
    (rest : List Char) :
    pieces separator (cs ++ separator :: rest) = cs :: pieces separator rest := by
  rw [pieces, piecesFrom_append h]
  simp [pieces, piecesFrom]

end Text

end SchemaForm
