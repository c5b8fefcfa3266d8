import SnapshotArchive.Catalog.Entry
import SnapshotArchive.Ledger

/-!
The objects that go into one region, in the order they were found. Laid out back to back, each in
whole words, they share one ledger; an object's bits are those of its words.
-/

namespace SnapshotArchive

/-- The objects of one region, the ledger of their pointer fields, and their bytes in whole words. -/
structure CopyList where
  sources : Array Word
  ledger : Ledger
  totalBytes : Nat

namespace CopyList

/-- No objects. -/
def empty : CopyList := ⟨#[], .empty, 0⟩

/-- Bytes in whole words once an object of `size` bytes is put at the end. -/
def bytesWith (l : CopyList) (size : Nat) : Nat :=
  (alignUp? (l.totalBytes + size) wordBytes).getD maxBytes

/-- The bits of the words of an object of `size` bytes that is put at the end: from `l.totalBytes /
    wordBytes` on. -/
def nextBits (l : CopyList) (size : Nat) : BitRange :=
  ⟨l.totalBytes / wordBytes, l.bytesWith size / wordBytes⟩

/-- The account `e` once its object is put at the end of `l`. -/
def listed (l : CopyList) (e : SourceEntry) : SourceEntry :=
  { e with bits? := some (l.nextBits e.size) }

/-- Puts the object of `e` at the end. -/
def accept (l : CopyList) (e : SourceEntry) : CopyList :=
  let total := l.bytesWith e.size
  { sources := l.sources.push e.source
    ledger := l.ledger.reserve (total / wordBytes)
    totalBytes := total }

/-- The offset `field - e.source`, if it is a whole number of words and the field ends within
    `e.size`. -/
def fieldOffset? (e : SourceEntry) (field : Word) : Option Nat :=
  let offset := field.toNat - e.source.toNat
  if e.source.toNat ≤ field.toNat ∧ isAligned offset wordBytes = true ∧
      offset + wordBytes ≤ e.size then some offset
  else none

/-- Notes that an object of the list holds a pointer at `field`. -/
def markField (l : CopyList) (e : SourceEntry) (field : Word) :
    Except Failure (CopyList × SourceEntry) :=
  match e.bits?, fieldOffset? e field with
  | some bits, some offset =>
    match l.ledger.set? (bits.start + offset / wordBytes) with
    | .ok ledger => .ok ({ l with ledger }, { e with hasPointers := true })
    | .error f => .error (.fault f)
  | _, _ => .error (Violation.badField e.source field e.size)

/-- Byte offsets of the pointers that the object of `e` holds, ascending: those of its bits that are
    set, from the first one on. -/
def pointerOffsets (l : CopyList) (e : SourceEntry) : List Nat :=
  match e.bits? with
  | none => []
  | some bits =>
    (l.ledger.onesIn bits.start bits.stop).map fun bit => (bit - bits.start) * wordBytes

end CopyList

end SnapshotArchive
