import SnapshotArchive.Session.Basic

/-!
Where things are and will be: copies by source, sources by copy, requested addresses, and offsets from
the base address of the chain of archives.
-/

namespace SnapshotArchive

namespace SessionM

/-- Where the copy of `source` is. -/
def outputAddr (source : Word) : SessionM (Addr .buffer) := do
  ofViolation ((← session).catalog.outputOf source)

/-- Which object was copied to `target`. -/
def sourceAddr (target : Addr .buffer) : SessionM Word := do
  match (← session).catalog.sourceOf? target with
  | some source => return source
  | none => violate (.unknownOutput target.word)

/-- Where the address `a` of the buffer will be mapped. -/
def toRequested (a : Addr .buffer) : SessionM (Addr .requested) := do
  let o ← output "to_requested"
  match o.buffer.offsetOf? a.word with
  | none => violate (.slotOutsideBuffer a.word)
  | some _ =>
    match o.shift.apply a with
    | .ok r => return r
    | .error e => violate (.relocatedOutOfRange e.addr (UInt64.ofNat maxBytes))

/-- The offset of `a` from the base of the chain. -/
def bufferOffset (a : Addr .buffer) : SessionM Nat := do
  let r ← toRequested a
  let base := (← session).settings.requestedBase
  if base ≤ r.word then return r.toNat - base.toNat
  else violate (.relocatedOutOfRange a.word r.word)

/-- The offset of `w` from the base of the chain: of an address of the dependency or the buffer, or
    of the copy of a source object. -/
def chainOffset (w : Word) : SessionM Nat := do
  let s ← session
  match s.dependency?.bind fun d => (d.mapped.locate? w).map fun a => (d, a) with
  | some (d, a) => return (a.offsetFrom? d.mapped.bottom).getD 0
  | none =>
    if s.output?.any (·.buffer.range.contains w) then bufferOffset ⟨w⟩
    else bufferOffset (← outputAddr w)

end SessionM

end SnapshotArchive
