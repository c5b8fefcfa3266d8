import SnapshotArchive.Arena
import SnapshotArchive.Buffer
import SnapshotArchive.Estimate
import SnapshotArchive.Ledger
import SnapshotArchive.UsageMeter

/-!
The output of a session: the buffer, what is allocated of it, and which of its words hold a pointer. A
slot is an aligned word of the buffer; a slot that holds zero is never marked.
-/

namespace SnapshotArchive

/-- The output buffer with all that describes its contents. -/
structure Output where
  buffer : Buffer
  arena : Arena
  /-- The words of the buffer that hold a pointer. -/
  pointers : Ledger
  meter : UsageMeter
  advisories : Advisories
  /-- Where the bottom of the buffer will be mapped. -/
  requestedBottom : Addr .requested
  /-- The top of the archive, once its regions are packed. -/
  requestedTop? : Option (Addr .requested)

namespace Output

/-- A fresh buffer with its bottom padding taken. -/
def start (buffer : Buffer) (alignment : Nat) (advisories : Advisories)
    (requestedBottom : Addr .requested) : Except BuildError Output :=
  (Arena.start buffer.length alignment).map fun arena =>
    { buffer
      arena
      pointers := .ofLength (buffer.length / wordBytes)
      meter := .start arena.top
      advisories
      requestedBottom
      requestedTop? := none }

/-- From the buffer to where it will be mapped. -/
def shift (o : Output) : Shift .buffer .requested := .between o.buffer.bottom o.requestedBottom

/-- Where byte `offset` will be mapped, as a number; zero if it leaves the address space. -/
def requestedPlace (o : Output) (offset : Nat) : Nat :=
  match o.shift.apply (o.buffer.addrAt offset) with
  | .ok a => a.toNat
  | .error _ => 0

/-- Stores `w` at byte `offset`. -/
def write (o : Output) (offset : Nat) (w : Word) : Output :=
  { o with buffer := o.buffer.write offset w }

/-- Notes that the slot at `offset` holds a pointer if it is not null. -/
def mark (o : Output) (offset : Nat) : Output :=
  if o.buffer.read offset = 0 then o
  else
    let index := offset / wordBytes
    { o with pointers := (o.pointers.reserve index).insert index }

@[simp] theorem buffer_mark (o : Output) (offset : Nat) : (o.mark offset).buffer = o.buffer := by
  unfold mark
  split <;> rfl

/-- Slot `i` is noted if it was before, or if it is the one at `offset` and not null. -/
theorem has_mark (o : Output) (offset i : Nat) :
    (o.mark offset).pointers.has i =
      (o.pointers.has i || (decide (i = offset / wordBytes) && o.buffer.read offset != 0)) := by
  unfold mark
  by_cases h : o.buffer.read offset = 0
  · simp [h]
  · have hb : (o.buffer.read offset != 0) = true := by rw [bne_iff_ne]; exact h
    rw [if_neg h, Ledger.has_insert _ (Ledger.lt_len_reserve ..), Ledger.has_reserve, hb,
      Bool.and_true]

/-- Stores the pointer `w` in the slot at `offset` and notes it. -/
def setPointer (o : Output) (offset : Nat) (w : Word) : Output := (o.write offset w).mark offset

/-- Notes that the slot at `offset`, which must be null, holds no pointer. -/
def clear (o : Output) (offset : Nat) : Except Violation Output :=
  if o.buffer.read offset = 0 then
    .ok { o with pointers := o.pointers.erase (offset / wordBytes) }
  else .error (.clearingLivePointer (o.buffer.addrAt offset).word)

end Output

end SnapshotArchive
