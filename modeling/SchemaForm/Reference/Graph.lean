/-
The references of a schema document, and which of them lead back into themselves.

A link goes from the schema object that holds a `$ref` to the place it names.
Chains of links are composed into the closure.  A link is recursive when it, or
a chain that starts with it, leads to a place that holds its source, and so is
every link that starts inside a place reached from a recursive one.
-/
import SchemaForm.Schema.Keyword

namespace SchemaForm

/-- A reference from one place of a document to another. -/
structure Link where
  source : String
  target : String
deriving DecidableEq, Repr, Inhabited

/-- Whether the target holds the source, so that following the link comes back to it. -/
def Link.targetsAncestor (l : Link) : Bool := Pointer.covers l.target l.source

/-- Adds what can be grown from the known values, round after round, until a
round brings nothing new. -/
def saturate {α : Type} [DecidableEq α] (grow : List α → List α) : Nat → List α → List α
  | 0, known => known
  | rounds + 1, known =>
      match ((grow known).filter fun x => !known.contains x).eraseDups with
      | [] => known
      | fresh => saturate grow rounds (known ++ fresh)

/-- The links of a document, the closure under composition, and the sources of
the recursive ones. -/
structure Graph where
  links : List Link
  closure : List Link
  recursive : List String
deriving Repr, Inhabited

namespace Graph

/-- The links of a document in the order of its schema objects. -/
def linksOf (document : Json) : List Link :=
  (Schema.objects document).filterMap fun (place, members) =>
    (Schema.reference? members).map fun reference => ⟨place, Pointer.normalize reference⟩

/-- Every known chain made longer by a link that starts at or below its end. -/
def longer (links known : List Link) : List Link :=
  known.flatMap fun chain =>
    (links.filter fun l => Pointer.covers chain.target l.source).map fun l =>
      ⟨chain.source, l.target⟩

/-- The chains of links, each by its first source and its last target.  There are
at most as many as pairs of links. -/
def closureOf (links : List Link) : List Link :=
  saturate (longer links) (links.length * links.length) links.eraseDups

/-- The sources of the links that start at or below the end of a chain from a
recursive source. -/
def entangled (links closure : List Link) (recursive : List String) : List String :=
  let reached := (closure.filter fun c => recursive.contains c.source).map Link.target
  (links.filter fun l => reached.any fun place => Pointer.covers place l.source).map Link.source

/-- The sources of the recursive links. -/
def recursiveOf (links closure : List Link) : List String :=
  let start := ((closure.filter Link.targetsAncestor).map Link.source).eraseDups
  saturate (entangled links closure) links.length start

/-- The reference graph of a document. -/
def of (document : Json) : Graph :=
  let links := linksOf document
  let closure := closureOf links
  ⟨links, closure, recursiveOf links closure⟩

/-- Whether the reference at a place is recursive. -/
def isRecursive (g : Graph) (source : String) : Bool := g.recursive.contains source

/-- The recursive links in document order. -/
def recursiveLinks (g : Graph) : List Link := g.links.filter fun l => g.isRecursive l.source

/-- The places that links lead to, each once. -/
def targets (g : Graph) : List String := (g.links.map Link.target).eraseDups

end Graph

end SchemaForm
