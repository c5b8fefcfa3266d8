import SnapshotArchive.KindMap

/-!
What went into an archive: how many objects of each kind and how many bytes they took, by region,
and the same for data that was put together by hand.
-/

namespace SnapshotArchive

/-- A number of allocations and their bytes. -/
structure Tally where
  count : Nat
  bytes : Nat
  deriving DecidableEq

namespace Tally

/-- No allocations. -/
def zero : Tally := ⟨0, 0⟩

/-- One more allocation, of `bytes`. -/
def record (t : Tally) (bytes : Nat) : Tally := ⟨t.count + 1, t.bytes + bytes⟩

/-- Two tallies together. -/
def plus (t u : Tally) : Tally := ⟨t.count + u.count, t.bytes + u.bytes⟩

end Tally

/-- What was allocated in one region. -/
structure RegionStats where
  objects : KindMap Tally
  other : Tally
  deriving DecidableEq

namespace RegionStats

/-- Nothing allocated. -/
def zero : RegionStats := ⟨.empty, .zero⟩

/-- Bytes of objects and of other data. -/
def bytes (s : RegionStats) : Nat := s.objects.values.foldr (fun t n => t.bytes + n) 0 + s.other.bytes

/-- What was allocated for objects of a kind. -/
def tally (s : RegionStats) (k : ObjectKind) : Tally := (s.objects.get? k).getD .zero

/-- Counts an object. -/
def record (s : RegionStats) (k : ObjectKind) (bytes : Nat) : RegionStats :=
  { s with objects := s.objects.alter k fun t => (t.getD .zero).record bytes }

/-- Counts `bytes` of other data. -/
def recordOther (s : RegionStats) (bytes : Nat) : RegionStats :=
  { s with other := s.other.record bytes }

theorem foldr_place (k : ObjectKind) (n : Nat) (es : List (ObjectKind × Tally)) :
    (KindMap.place k (fun t => (t.getD .zero).record n) es).foldr (fun e n => e.2.bytes + n) 0 =
      es.foldr (fun e n => e.2.bytes + n) 0 + n := by
  induction es with
  | nil => simp [KindMap.place, Tally.zero, Tally.record]
  | cons e es ih =>
    obtain ⟨j, t⟩ := e
    unfold KindMap.place
    split
    · simp [Tally.record]; omega
    · split
      · simp [Tally.record, Tally.zero]; omega
      · simp [ih]; omega

theorem bytes_record (s : RegionStats) (k : ObjectKind) (n : Nat) :
    (s.record k n).bytes = s.bytes + n := by
  have := foldr_place k n s.objects.entries
  simp only [bytes, record, KindMap.values, KindMap.alter, List.foldr_map] at *
  omega

theorem bytes_recordOther (s : RegionStats) (n : Nat) : (s.recordOther n).bytes = s.bytes + n := by
  simp [bytes, recordOther, Tally.record]; omega

end RegionStats

/-- What was allocated in both regions. -/
structure Stats where
  mutable : RegionStats
  readOnly : RegionStats
  deriving DecidableEq

namespace Stats

/-- Nothing allocated. -/
def zero : Stats := ⟨.zero, .zero⟩

/-- What was allocated in a region. -/
def region (s : Stats) : RegionKind → RegionStats
  | .mutable => s.mutable
  | .readOnly => s.readOnly

/-- Changes the account of `region` by `f`. -/
def update (s : Stats) (region : RegionKind) (f : RegionStats → RegionStats) : Stats :=
  match region with
  | .mutable => { s with mutable := f s.mutable }
  | .readOnly => { s with readOnly := f s.readOnly }

/-- Counts a copied object. -/
def record (s : Stats) (kind : ObjectKind) (bytes : Nat) (region : RegionKind) : Stats :=
  s.update region (·.record kind bytes)

/-- Counts data that was put together by hand. -/
def recordOther (s : Stats) (bytes : Nat) (region : RegionKind) : Stats :=
  s.update region (·.recordOther bytes)

end Stats

end SnapshotArchive
