import SnapshotArchive.Session.Map

/-!
The last pass: every noted pointer goes from the buffer, or from where the dependency is mapped, to the
requested address of its target. Slots that are null are dropped from the ledger, which then ends with
its last pointer.
-/

namespace SnapshotArchive

namespace Session

/-- The pointer `value` shifted to `a`, which must lie in `requested`. -/
def inRange (requested : AddrRange .requested) (value : Word) (a : Addr .requested) :
    Except Violation Word :=
  if requested.contains a.word then .ok a.word else .error (.relocatedOutOfRange value 0)

/-- The requested address of the target of the pointer `value` at byte `offset`. Pointers into the
    part `used` of the buffer come first, then those into the dependency; there are no others. -/
def shiftedWord (used : AddrRange .buffer) (δ : Shift .buffer .requested)
    (requested : AddrRange .requested) (dependency? : Option Dependency) (offset : Nat)
    (value : Word) : Except Violation Word :=
  match used.locate? value with
  | some a =>
    match δ.apply a with
    | .ok r => inRange requested value r
    | .error _ => .error (.pointerOutOfRange offset value)
  | none =>
    match dependency?.bind fun d => (d.mapped.locate? value).map fun a => (d, a) with
    | none => .error (.pointerOutOfRange offset value)
    | some (d, a) =>
      match d.shift.apply a with
      | .ok r => inRange d.requested value r
      | .error _ => .error (.pointerOutOfRange offset value)

end Session

namespace SessionM

open Session

/-- Shifts the pointer in word `index`; answers whether there is one. -/
def shiftSlot (used : AddrRange .buffer) (requested : AddrRange .requested) (index : Nat) :
    SessionM Bool := do
  let s ← session
  let o ← output "relocate_to_requested"
  let offset := index * wordBytes
  let value := o.buffer.read offset
  if value = 0 then return false
  let relocated ← ofViolation (shiftedWord used o.shift requested s.dependency? offset value)
  tell (.shifted offset value relocated)
  changeOutput (·.write offset relocated)
  return true

/-- Shifts every noted pointer and drops the slots that are null. What was done before a failure stays
    done. -/
def shiftNoted (used : AddrRange .buffer) (requested : AddrRange .requested) : SessionM Unit := do
  let pointers := (← output "relocate_to_requested").pointers
  let (outcome, pointers) ←
    (pointers.retain fun index => (shiftSlot used requested index).run : StateM Run _)
  -- the slots that were dropped stay dropped, whatever the outcome
  setOutput { ← output "relocate_to_requested" with pointers }
  ofFailure outcome

/-- Packs the read-only region; answers the used part of the buffer and where it will be mapped. -/
def settleRange : SessionM (AddrRange .buffer × AddrRange .requested) := do
  let o ← output "relocate_to_requested"
  let o := { o with arena := o.arena.pack }
  setOutput o
  match AddrRange.ofLength? o.buffer.bottom o.arena.top with
  | none => violate (.slotOutsideBuffer o.buffer.bottom.word)
  | some used =>
    match o.shift.applyRange used with
    | .error e => violate (.relocatedOutOfRange e.addr (UInt64.ofNat maxBytes))
    | .ok requested =>
      setOutput { o with requestedTop? := some requested.top }
      return (used, requested)

/-- Drops the bits past the last pointer. -/
def compactPointers : SessionM Unit := do
  let o ← output "relocate_to_requested"
  let pointers := o.pointers.compact o.pointers.lastOne?
  setOutput { o with pointers }
  tell (.pointerCount pointers.countOnes)

/-- Shifts the archive to its requested address and finishes the session. -/
def relocate : SessionM Unit := do
  requireStage .wired "relocate_to_requested"
  let (used, requested) ← settleRange
  tell (.shifting used requested)
  shiftNoted used requested
  compactPointers
  enter .relocated
  if (← session).settings.logMap then logMap

end SessionM

end SnapshotArchive
