import SnapshotArchive.Session.Basic

/-!
Reserving the output buffer, allocating data that is put together by hand, and checking how much was
used. Where the archive will be mapped is settled with the reservation: at the base address, or above
the dependency.
-/

namespace SnapshotArchive

namespace Session

/-- Where the archive will start; none if no address is left above the dependency. -/
def requestedBottom? (s : Session) : Option Nat :=
  match s.dependency? with
  | none => some s.settings.requestedBase.toNat
  | some d => alignUp? d.requested.top.toNat s.settings.regionAlignment

/-- The end of an archive of `size` bytes that starts at `bottom?`, if it is an address. -/
def requestedTop? (bottom? : Option Nat) (size : Nat) : Option Nat :=
  bottom?.bind fun bottom => if bottom + size < addressLimit then some (bottom + size) else none

end Session

namespace SessionM

open Session

/-- Refuses a `base` above which the archive does not fit. -/
def refuseBase (base : Nat) (bottom? top? : Option Nat) : SessionM (Addr .requested) := do
  let bottom := bottom?.getD maxBytes
  let top := top?.getD maxBytes
  tell (.refusedBottom bottom)
  tell (.refusedTop top)
  throw (.error (.baseAddressTooHigh base bottom top))

/-- Settles where an archive of `size` bytes starts. -/
def placeArchive (size : Nat) : SessionM (Addr .requested) := do
  let s ← session
  let base := s.settings.requestedBase.toNat
  let bottom? := s.requestedBottom?
  let top? := requestedTop? bottom? size
  match bottom?, top? with
  | some bottom, some top =>
    if base ≤ bottom ∧ base < top then return ⟨UInt64.ofNat bottom⟩ else refuseBase base bottom? top?
  | _, _ => refuseBase base bottom? top?

/-- Estimates the size of the archive and reserves its buffer. -/
def reserveBuffer (advisories : Advisories) : SessionM Unit := do
  requireStage .gathered "reserve_buffer"
  let s ← session
  let alignment := s.settings.regionAlignment
  (Event.ofEstimate s.estimate advisories alignment).forM tell
  let size := s.estimate.total advisories alignment
  let requestedBottom ← placeArchive size
  let buffer ← ofBuild (Buffer.reserve s.reservations size alignment)
  tell (.reserved buffer.range)
  setOutput (← ofBuild (Output.start buffer alignment advisories requestedBottom))
  enter .reserved

/-- Allocates `bytes` for data that is put together by hand. -/
def allocateOther (bytes : Nat) : SessionM (Addr .buffer) := do
  if !(← session).stage.before .wired then violate (.outOfOrder "allocate_other")
  let o ← openOutput "allocate_other"
  let (offset, arena) ← ofBuild (o.arena.allocate bytes)
  changeOutput ({ · with arena })
  update fun s =>
    { s with stats := s.stats.recordOther (arena.top - o.arena.top) o.arena.current }
  return o.buffer.addrAt offset

/-- Stores `w`, which is no pointer, in `slot`. -/
def writeWord (slot : Addr .buffer) (w : Word) : SessionM Unit := do
  let o ← openOutput "write_word"
  let offset ← ofViolation (o.buffer.slotOffset slot)
  changeOutput (·.write offset w)

/-- Checks that no more than `estimate` bytes were used since the last check. -/
def verifyEstimate (estimate : Nat) (label : String) : SessionM Unit := do
  let o ← openOutput "verify_estimate"
  tell (Event.ofCheck o.meter o.arena.top estimate label)
  let meter ← ofViolation (o.meter.verify o.arena.top estimate label)
  changeOutput ({ · with meter })

end SessionM

end SnapshotArchive
