import SnapshotArchive.Failure

/-!
The host whose objects are archived, as far as a build looks at it: the references of its object
graph, the memory of its objects, and answers to a few questions about them. The traversal reports
references in depth-first preorder and looks into an object only where it is told to.
-/

namespace SnapshotArchive

/-- The place of a reference: a field of an object. -/
structure FieldRef where
  enclosing : Word
  field : Word
  deriving DecidableEq

/-- A reference to an object: from a field, or a root. It asks for its target to be placed in one of
    the regions. -/
structure Edge where
  origin? : Option FieldRef
  pointee : Word
  kind : ObjectKind
  size : Nat
  readOnly : Bool
  deriving DecidableEq

/-- Whether a traversal looks into the object it reported. -/
inductive Visit where
  | recurse | skip
  deriving DecidableEq

/-- What a build asks of its host. -/
structure Host where
  /-- The reference to an object as a root; none if there is no object at the address. -/
  rootEdge? : Word → Option Edge
  /-- The references held by the object at an address, by ascending field. -/
  edges : Word → Except Fault (List Edge)
  /-- How many references all objects together hold at most. -/
  edgeCount : Nat
  /-- The word `i` words above an address. -/
  wordAt : Word → Nat → Word
  /-- Stable name of a type descriptor. -/
  typeName : Word → String
  /-- Description of an object in the archive map. -/
  describe : Word → Option String
  /-- Whether a type descriptor is left out of archives. -/
  isExcluded : Word → Bool
  /-- Whether an object was replaced. -/
  hasSubstitute : Word → Bool
  /-- The object that an object was replaced by. -/
  substitute? : Word → Option Word

namespace Host

variable {σ : Type}

/-- Reports the references of `pending` in turn; those of an object that is looked into come next.
    Each reference takes one unit of `fuel`. -/
def walk (h : Host) (report : Edge → ExceptT Failure (StateM σ) Visit) :
    (fuel : Nat) → (pending : List Edge) → ExceptT Failure (StateM σ) Unit
  | 0, _ => pure ()
  | _ + 1, [] => pure ()
  | fuel + 1, edge :: rest => do
    match ← report edge with
    | .skip => walk h report fuel rest
    | .recurse =>
      match h.edges edge.pointee with
      | .ok held => walk h report fuel (held ++ rest)
      | .error f => throw (.fault f)

/-- Reports `root` and, as told, what is reachable from it. If no object is looked into twice, the
    references do not outnumber those of all objects and the root. -/
def visit (h : Host) (root : Word) (report : Edge → ExceptT Failure (StateM σ) Visit) :
    ExceptT Failure (StateM σ) Unit :=
  match h.rootEdge? root with
  | none => pure ()
  | some edge => walk h report (h.edgeCount + 1) [edge]

end Host

end SnapshotArchive
