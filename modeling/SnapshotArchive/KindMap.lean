import SnapshotArchive.Kind

/-!
Values by object kind, kept in the order of the kinds.
-/

namespace SnapshotArchive

/-- At most one value for each kind; the entries stand in the order of the kinds. -/
structure KindMap (α : Type) where
  entries : List (ObjectKind × α)
  deriving DecidableEq

namespace KindMap

variable {α : Type}

/-- No values. -/
def empty : KindMap α := ⟨[]⟩

/-- The value of kind `k` in a list of entries. -/
def lookup (k : ObjectKind) : List (ObjectKind × α) → Option α
  | [] => none
  | (j, a) :: rest => if j = k then some a else lookup k rest

/-- Puts `f` of the old value at kind `k`, before the first later kind if there is none. -/
def place (k : ObjectKind) (f : Option α → α) : List (ObjectKind × α) → List (ObjectKind × α)
  | [] => [(k, f none)]
  | (j, a) :: rest =>
    if j = k then (k, f (some a)) :: rest
    else if k.index < j.index then (k, f none) :: (j, a) :: rest
    else (j, a) :: place k f rest

/-- The value of kind `k`. -/
def get? (m : KindMap α) (k : ObjectKind) : Option α := lookup k m.entries

/-- Replaces the value of kind `k` by `f` of it. -/
def alter (m : KindMap α) (k : ObjectKind) (f : Option α → α) : KindMap α := ⟨place k f m.entries⟩

/-- Gives kind `k` the value `a`. -/
def insert (m : KindMap α) (k : ObjectKind) (a : α) : KindMap α := m.alter k fun _ => a

/-- The values, in the order of their kinds. -/
def values (m : KindMap α) : List α := m.entries.map (·.2)

@[simp] theorem get?_empty (k : ObjectKind) : (empty : KindMap α).get? k = none := rfl

end KindMap

end SnapshotArchive
