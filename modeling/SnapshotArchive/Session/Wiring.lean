import SnapshotArchive.Session.Basic

/-!
Wiring: every pointer field of a copy still holds the address its target had in the host, and is set to
where that target ends up. Targets in the dependency keep their address; null fields are not noted.
-/

namespace SnapshotArchive

namespace SessionM

/-- Wires the field at byte `offset`. -/
def wireField (offset : Nat) : SessionM Unit := do
  let o ← output "relocate_embedded_pointers"
  let old := o.buffer.read offset
  let new := (← ofViolation ((← session).catalog.resolve old)).word
  tell (.wired (o.buffer.addrAt offset).word old new)
  changeOutput (·.setPointer offset new)

/-- Wires the pointer fields of the object of `l` at `source`. -/
def wireObject (l : CopyList) (source : Word) : SessionM Unit := do
  match (← session).catalog.get? source with
  | none => violate (.unresolvedPointer source)
  | some entry =>
    match entry.output? with
    | none => violate (.unresolvedPointer source)
    | some target =>
      let o ← output "relocate_embedded_pointers"
      let base ← ofViolation (o.buffer.slotOffset target)
      (l.pointerOffsets entry).forM fun offset => wireField (base + offset)

/-- Wires the objects of the region `kind`. -/
def wireRegion (kind : RegionKind) : SessionM Unit := do
  let l := (← session).copyList kind
  l.sources.toList.forM (wireObject l)

/-- Wires every copied object. -/
def wire : SessionM Unit := do
  requireStage .readOnlyCopied "relocate_embedded_pointers"
  tell .wiring
  wireRegion .mutable
  wireRegion .readOnly
  enter .wired

end SessionM

end SnapshotArchive
