/-
JSON values.

Members of an object keep their order, which the program shows in its results,
but equality does not look at it: two objects are equal when they have equally
many members and each member of one is found, with an equal value, in the other.
-/
import SchemaForm.Number.Basic
import SchemaForm.Table

namespace SchemaForm

/-- A JSON value. -/
inductive Json where
  | null
  | bool (value : Bool)
  | num (value : Number)
  | str (value : String)
  | arr (items : List Json)
  | obj (members : List (String × Json))
deriving Inhabited, Repr

/-- The members of an object in order. -/
abbrev Members := Table Json

namespace Json

/-! ## Reading a value -/

/-- The value of a member, when the value is an object that has it. -/
def get? : Json → String → Option Json
  | .obj members, key => Table.get? members key
  | _, _ => none

/-- Whether the value is an object with the member. -/
def has (j : Json) (key : String) : Bool := (j.get? key).isSome

def str? : Json → Option String
  | .str s => some s
  | _ => none

def bool? : Json → Option Bool
  | .bool b => some b
  | _ => none

def arr? : Json → Option (List Json)
  | .arr items => some items
  | _ => none

def obj? : Json → Option Members
  | .obj members => some members
  | _ => none

/-- The number as a word, when it is an integer that fits one. -/
def word? : Json → Option Nat
  | .num n => n.word?
  | _ => none

/-- The nearest binary64 number. -/
def real? : Json → Option Binary64
  | .num n => n.toReal?
  | _ => none

def isNull : Json → Bool
  | .null => true
  | _ => false

def isStr (j : Json) : Bool := j.str?.isSome

def isObj (j : Json) : Bool := j.obj?.isSome

def isNum : Json → Bool
  | .num _ => true
  | _ => false

/-- Null, the empty object and the empty list. -/
def isEmpty : Json → Bool
  | .null => true
  | .obj members => members.isEmpty
  | .arr items => items.isEmpty
  | _ => false

/-- The integer that stands for a count. -/
def nat (n : Nat) : Json := .num (.int n)

/-- The list of strings. -/
def strs (texts : List String) : Json := .arr (texts.map .str)

/-! ## Equality -/

mutual

/-- Equality of values, whatever the order of members. -/
def same : Json → Json → Bool
  | .null, .null => true
  | .bool a, .bool b => a == b
  | .num m, .num n => m.same n
  | .str s, .str t => s == t
  | .arr xs, .arr ys => sameItems xs ys
  | .obj ms, .obj ns => ms.length == ns.length && sameMembers ms ns
  | _, _ => false

/-- Equality item by item. -/
def sameItems : List Json → List Json → Bool
  | [], [] => true
  | x :: xs, y :: ys => same x y && sameItems xs ys
  | _, _ => false

/-- Whether every member is found in a table with an equal value. -/
def sameMembers : List (String × Json) → Members → Bool
  | [], _ => true
  | (key, value) :: rest, table =>
      (match Table.get? table key with
        | some other => same value other
        | none => false) && sameMembers rest table

end

instance : BEq Json := ⟨Json.same⟩

theorem beq_def (a b : Json) : (a == b) = a.same b := rfl

/-! ## Size -/

mutual

/-- The number of values in a value, itself included. -/
def size : Json → Nat
  | .arr items => 1 + sizeItems items
  | .obj members => 1 + sizeMembers members
  | _ => 1

def sizeItems : List Json → Nat
  | [] => 0
  | x :: xs => size x + sizeItems xs

def sizeMembers : List (String × Json) → Nat
  | [] => 0
  | (_, value) :: rest => size value + sizeMembers rest

end

theorem size_pos (j : Json) : 0 < j.size := by
  cases j <;> simp only [size] <;> omega

theorem size_le_of_mem {x : Json} {items : List Json} (h : x ∈ items) :
    x.size ≤ sizeItems items := by
  induction items with
  | nil => cases h
  | cons y ys ih =>
      rcases List.mem_cons.mp h with rfl | h
      · simp [sizeItems]
      · have := ih h
        simp only [sizeItems]
        omega

theorem size_le_of_get? {members : Members} {key : String} {value : Json}
    (h : Table.get? members key = some value) : value.size ≤ sizeMembers members := by
  induction members with
  | nil => cases h
  | cons entry rest ih =>
      obtain ⟨name, first⟩ := entry
      rw [Table.get?_cons] at h
      split at h
      · cases h
        simp [sizeMembers]
      · have := ih h
        simp only [sizeMembers]
        omega

end Json

end SchemaForm
