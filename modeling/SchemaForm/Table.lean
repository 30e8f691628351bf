/-
Tables keyed by names, in which every entry has a position.

A table is the list of its entries, so the order that a reader of the program
sees is the order of the list.  Writing an existing name keeps its position,
writing a new one appends it, and there are two ways to take an entry out:
`erase` closes the gap, `swapErase` fills it with the last entry.
-/

namespace SchemaForm

/-- Entries in order, at most one of which is meant to carry a given name. -/
abbrev Table (β : Type) := List (String × β)

namespace Table

variable {β : Type}

/-- The value stored under a name. -/
def get? : Table β → String → Option β
  | [], _ => none
  | (name, value) :: rest, key => if name = key then some value else get? rest key

/-- Whether the name has an entry. -/
def has (t : Table β) (key : String) : Bool :=
  (get? t key).isSome

/-- The names in order. -/
def names (t : Table β) : List String :=
  t.map Prod.fst

/-- Writes a value: in place where the name has an entry, at the end where it has none. -/
def insert : Table β → String → β → Table β
  | [], key, value => [(key, value)]
  | (name, old) :: rest, key, value =>
      if name = key then (key, value) :: rest else (name, old) :: insert rest key value

/-- Writes every entry of the second table into the first, in order. -/
def insertAll (t : Table β) (more : Table β) : Table β :=
  more.foldl (fun acc entry => insert acc entry.1 entry.2) t

/-- Takes the entry of a name out and keeps the order of the others. -/
def erase : Table β → String → Table β
  | [], _ => []
  | (name, value) :: rest, key =>
      if name = key then rest else (name, value) :: erase rest key

/-- Takes the entry of a name out and moves the last entry into its place. -/
def swapErase : Table β → String → Table β
  | [], _ => []
  | (name, value) :: rest, key =>
      if name = key then
        match rest.getLast? with
        | none => []
        | some last => last :: rest.dropLast
      else (name, value) :: swapErase rest key

/-- Changes the value of a name, starting from `fresh` where it has no entry. -/
def modify : Table β → String → β → (β → β) → Table β
  | [], key, fresh, f => [(key, f fresh)]
  | (name, value) :: rest, key, fresh, f =>
      if name = key then (name, f value) :: rest else (name, value) :: modify rest key fresh f

/-- Writes a value into a table that is sorted by name, and keeps it sorted. -/
def insertSorted : Table β → String → β → Table β
  | [], key, value => [(key, value)]
  | (name, old) :: rest, key, value =>
      if key < name then (key, value) :: (name, old) :: rest
      else if key = name then (key, value) :: rest
      else (name, old) :: insertSorted rest key value

/-! ## Reading back what was written -/

@[simp] theorem get?_nil (key : String) : get? ([] : Table β) key = none := rfl

theorem get?_cons (name : String) (value : β) (rest : Table β) (key : String) :
    get? ((name, value) :: rest) key = if name = key then some value else get? rest key := rfl

theorem get?_insert (t : Table β) (key : String) (value : β) (other : String) :
    get? (insert t key value) other = if key = other then some value else get? t other := by
  induction t with
  | nil => rfl
  | cons entry rest ih =>
      obtain ⟨name, old⟩ := entry
      by_cases h : name = key
      · subst h
        by_cases ho : name = other <;> simp [insert, get?, ho]
      · by_cases ho : name = other
        · subst ho
          simp [insert, get?, h, Ne.symm h]
        · simp [insert, get?, h, ho, ih]

end Table

end SchemaForm
