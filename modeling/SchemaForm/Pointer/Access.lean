/-
Reading, replacing and visiting the places of a value.

`Json.at?` reads a place, `Json.put?` replaces one that is there, and `Json.set`
tells whether it was.  `preorder` and `postorder` list every place with its
pointer, parents before children and children before parents.
-/
import SchemaForm.Json.Basic
import SchemaForm.Pointer.Basic

namespace SchemaForm

namespace Json

/-- One step down: a member of an object or an item of a list. -/
def step? : Json → String → Option Json
  | .obj members, key => Table.get? members key
  | .arr items, key => (Pointer.position? key).bind fun i => items[i]?
  | _, _ => none

/-- Steps down along segments. -/
def follow? (j : Json) : List String → Option Json
  | [] => some j
  | key :: rest => (j.step? key).bind fun next => follow? next rest

/-- The value at a pointer. -/
def at? (j : Json) (pointer : String) : Option Json :=
  (Pointer.segments? pointer).bind j.follow?

/-- The first value other than null among several places. -/
def firstAt? : List (Json × String) → Option Json
  | [] => none
  | (j, pointer) :: rest =>
      match (j.at? pointer).filter (!·.isNull) with
      | some found => some found
      | none => firstAt? rest

/-- Replaces the value at the end of a path that is there. -/
def putAlong? (new : Json) : List String → Json → Option Json
  | [], _ => some new
  | key :: rest, .obj members =>
      (Table.get? members key).bind fun old =>
        (putAlong? new rest old).map fun value => .obj (Table.insert members key value)
  | key :: rest, .arr items =>
      (Pointer.position? key).bind fun i =>
        items[i]?.bind fun old =>
          (putAlong? new rest old).map fun value => .arr (items.set i value)
  | _, _ => none

/-- Replaces the value at a pointer, if there is one. -/
def put? (j : Json) (pointer : String) (new : Json) : Option Json :=
  (Pointer.segments? pointer).bind fun segments => putAlong? new segments j

/-- Whether there is a value at a pointer, and the whole with the value replaced. -/
def set (j : Json) (pointer : String) (new : Json) : Bool × Json :=
  match j.put? pointer new with
  | some changed => (true, changed)
  | none => (false, j)

/-! ## Visiting every place -/

mutual

/-- Every place from `here` down, a value before what it holds; what a skipped
place holds is left out. -/
def preorder (skip : String → Bool) (here : String) : Json → List (String × Json)
  | .arr items =>
      (here, .arr items) :: if skip here then [] else preorderItems skip here 0 items
  | .obj members =>
      (here, .obj members) :: if skip here then [] else preorderMembers skip here members
  | .null => [(here, .null)]
  | .bool b => [(here, .bool b)]
  | .num n => [(here, .num n)]
  | .str s => [(here, .str s)]

def preorderItems (skip : String → Bool) (here : String) (index : Nat) :
    List Json → List (String × Json)
  | [] => []
  | x :: xs =>
      preorder skip (Pointer.item here index) x ++ preorderItems skip here (index + 1) xs

def preorderMembers (skip : String → Bool) (here : String) :
    List (String × Json) → List (String × Json)
  | [] => []
  | (key, value) :: rest =>
      preorder skip (Pointer.child here key) value ++ preorderMembers skip here rest

end

mutual

/-- Every place from `here` down, a value after what it holds. -/
def postorder (here : String) : Json → List (String × Json)
  | .arr items => postorderItems here 0 items ++ [(here, .arr items)]
  | .obj members => postorderMembers here members ++ [(here, .obj members)]
  | .null => [(here, .null)]
  | .bool b => [(here, .bool b)]
  | .num n => [(here, .num n)]
  | .str s => [(here, .str s)]

def postorderItems (here : String) (index : Nat) : List Json → List (String × Json)
  | [] => []
  | x :: xs => postorder (Pointer.item here index) x ++ postorderItems here (index + 1) xs

def postorderMembers (here : String) : List (String × Json) → List (String × Json)
  | [] => []
  | (key, value) :: rest => postorder (Pointer.child here key) value ++ postorderMembers here rest

end

/-- The pointers of all places, parents first. -/
def places (j : Json) : List String := (preorder (fun _ => false) "" j).map Prod.fst

end Json

end SchemaForm
