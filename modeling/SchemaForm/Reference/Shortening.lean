/-
The shallowest equivalent of a pointer under rules that fold recursion.

A rule `from ↦ to` says that the place `from` holds the same thing as the place
`to` above it, so a pointer at or below `from` may be moved up.  Only rules whose
target is a strict ancestor of the source are used, so every move makes the
pointer shorter.
-/
import SchemaForm.Pointer.Generic

namespace SchemaForm

/-- For each recursive place the place above it that it repeats, sorted by place. -/
abbrev FoldRules := Table String

namespace Pointer

/-- Whether a rule moves pointers up. -/
def isFold (rule : String × String) : Bool :=
  rule.1 != rule.2 && covers rule.2 rule.1

/-- A pointer at or below the source of a rule, moved to its target. -/
def moved (arrays : ArrayTable) (rule : String × String) (pointer : String) : String :=
  toGeneric arrays (rule.2 ++ after rule.1 pointer)

/-- Applies one rule for as long as it makes the pointer shorter. -/
def foldBy (arrays : ArrayTable) (rule : String × String) (pointer : String) : String :=
  if covers rule.1 pointer then
    if (moved arrays rule pointer).length < pointer.length then
      foldBy arrays rule (moved arrays rule pointer)
    else pointer
  else pointer
termination_by pointer.length

/-- Applies every rule in turn. -/
def foldOnce (rules : FoldRules) (arrays : ArrayTable) (pointer : String) : String :=
  (rules.filter isFold).foldl (fun p rule => foldBy arrays rule p) pointer

/-- Applies the rules for as long as they make the pointer shorter. -/
def foldAll (rules : FoldRules) (arrays : ArrayTable) (pointer : String) : String :=
  if (foldOnce rules arrays pointer).length < pointer.length then
    foldAll rules arrays (foldOnce rules arrays pointer)
  else pointer
termination_by pointer.length

/-- The shallowest equivalent of a pointer, in generic form. -/
def shorten (rules : FoldRules) (arrays : ArrayTable) (pointer : String) : String :=
  foldAll rules arrays (toGeneric arrays pointer)

end Pointer

end SchemaForm
