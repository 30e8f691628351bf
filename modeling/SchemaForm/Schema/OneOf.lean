/-
Options read off the `oneOf` branches of a schema.

The branches qualify when each has a title and all fix a value in the same way,
by a list of one allowed value or by a constant.
-/
import SchemaForm.TitleMap.Basic

namespace SchemaForm

namespace Schema

/-- The title of a branch, which must not be empty. -/
def branchTitle? (branch : Json) : Option String :=
  ((branch.get? "title").bind Json.str?).filter (· ≠ "")

/-- The only allowed value of a branch. -/
def singleValue? (branch : Json) : Option Json :=
  match branch.get? "enum" with
  | some (.arr [value]) => some value
  | _ => none

/-- The constant of a branch, unless it is null. -/
def constant? (branch : Json) : Option Json := (branch.get? "const").filter (!·.isNull)

/-- The branches as options, titles in full. -/
def oneOfChoices? (schema : Json) : Option (List TitleMap.Choice) := do
  let branches ← (schema.get? "oneOf").bind Json.arr?
  if branches.isEmpty then none
  let titles ← branches.mapM branchTitle?
  let values ← (branches.mapM singleValue?).or (branches.mapM constant?)
  return List.zipWith TitleMap.Choice.plain titles values

/-- Whether every branch can be shown as a labelled option. -/
def hasOneOfChoices (schema : Json) : Bool := (oneOfChoices? schema).isSome

/-- The parts of a title before and after its first separator. -/
def splitTitle? (before : List Char) : List Char → Option (List Char × List Char)
  | ':' :: ' ' :: rest => some (before.reverse, rest)
  | c :: rest => splitTitle? (c :: before) rest
  | [] => none

/-- An option with its title split into a group and a name, where both are there. -/
def splitChoice (c : TitleMap.Choice) : TitleMap.Choice :=
  match splitTitle? [] c.name.toList with
  | some (group, name) =>
      if group ≠ [] ∧ name ≠ [] then ⟨String.ofList name, c.value, some (String.ofList group)⟩
      else c
  | none => c

/-- Whether two neighbours are in one group. -/
def neighboursShareGroup : List TitleMap.Choice → Bool
  | a :: b :: rest => (b.group.isSome && a.group == b.group) || neighboursShareGroup (b :: rest)
  | _ => false

/-- The options of the branches.  Unless `flat` is false, titles are split when
more than one has the separator; without a wish the split is kept only where it
brings neighbours together. -/
def oneOfTitleMap? (schema : Json) (flat : Option Bool) : Option (List TitleMap.Choice) :=
  (oneOfChoices? schema).map fun choices =>
    let separated := choices.countP fun c => (splitTitle? [] c.name.toList).isSome
    if flat = some false ∨ separated ≤ 1 then choices
    else
      let split := choices.map splitChoice
      if flat = some true ∨ neighboursShareGroup split then split else choices

end Schema

end SchemaForm
