import SnapshotArchive.KindMap
import SnapshotArchive.Session.Reservation

/-!
Copying the objects of either region into the buffer, in the order of their lists. A type descriptor has
a word in front for its lookup record. Where a kind has a dispatch table, the first word of each copy
points at it. After the last copy the objects that were replaced end up where their substitutes do.
-/

namespace SnapshotArchive

/-- The dispatch table of an object of a kind that was copied to an address. -/
abbrev TableProvider := ObjectKind → Addr .buffer → Option (Addr .buffer)

/-- No object has a dispatch table. -/
def noTables : TableProvider := fun _ _ => none

namespace SessionM

/-- Allocates `bytes` of the current region for an object. -/
def allocateCopy (bytes : Nat) : SessionM Nat := do
  let o ← openOutput "make_shallow_copy"
  let (offset, arena) ← ofBuild (o.arena.allocate bytes)
  changeOutput ({ · with arena })
  return offset

/-- Lets the first word of the copy at `target` point at `table`; both must be slots of the buffer.
    -/
def installTable (target table : Addr .buffer) : SessionM Unit := do
  let o ← openOutput "make_shallow_copy"
  let offset ← ofViolation (o.buffer.slotOffset target)
  let _ ← ofViolation (o.buffer.slotOffset table)
  changeOutput (·.setPointer offset table.word)

/-- Copies `size` bytes of the object at `source` to byte `offset`. -/
def copyWords (offset : Nat) (source : Word) (size : Nat) : SessionM Unit := do
  let host := (← session).host
  changeOutput fun o => { o with buffer := o.buffer.copyIn offset (host.wordAt source) size }

/-- Notes in the catalog that `source` was copied to `target`. -/
def placeCopy (source : Word) (target : Addr .buffer) : SessionM Unit := do
  let (outcome, catalog) := (← session).catalog.place source target
  update ({ · with catalog })
  ofViolation outcome

/-- Copies the object of `entry`, with the table that `tables` has for it. -/
def copyEntry (tables : TableProvider) (entry : SourceEntry) : SessionM Unit := do
  let before ← openOutput "make_shallow_copy"
  if entry.kind = .typeDescriptor then
    let _ ← allocateCopy wordBytes
  let offset ← allocateCopy entry.size
  copyWords offset entry.source entry.size
  let target := before.buffer.addrAt offset
  match tables entry.kind target with
  | some table => installTable target table
  | none => pure ()
  placeCopy entry.source target
  tell (.copied entry.source target entry.size)
  let after ← openOutput "make_shallow_copy"
  update fun s =>
    { s with
      stats := s.stats.record entry.kind (after.arena.top - before.arena.top)
        (.ofReadOnly entry.readOnly) }

/-- Copies the object of the catalog at `source`. -/
def copyObject (tables : TableProvider) (source : Word) : SessionM Unit := do
  match (← session).catalog.get? source with
  | some entry => copyEntry tables entry
  | none => violate (.unresolvedPointer source)

/-- Copies the objects of the region `kind`, in list order. -/
def copyRegion (kind : RegionKind) (tables : TableProvider) : SessionM Unit := do
  let sources := ((← session).copyList kind).sources.toList
  sources.forM (copyObject tables)
  tell (.copiedAll sources.length)

/-- Copies the mutable objects. -/
def copyMutable (tables : TableProvider) : SessionM Unit := do
  requireStage .reserved "dump_mutable"
  tell (.copying .mutable)
  copyRegion .mutable tables
  enter .mutableCopied

/-- Lets the replaced object `former` end up where its substitute does. -/
def resolveReplaced (former : Word) : SessionM Unit := do
  let s ← session
  match s.host.substitute? former with
  | none => violate (.unresolvedPointer former)
  | some substitute =>
    let catalog ← ofViolation (s.catalog.addAlias former substitute)
    update ({ · with catalog })
    tell (.replaced former substitute)

/-- Packs the mutable region and goes on to the read-only one. -/
def switchRegion : SessionM Unit := do
  let o ← openOutput "dump_read_only"
  let arena ← ofViolation o.arena.startReadOnly
  setOutput { o with arena, meter := o.meter.switchRegion o.arena.top arena.top }

/-- Copies the read-only objects, settles the replaced ones, and checks the estimate. -/
def copyReadOnly (tables : TableProvider) : SessionM Unit := do
  requireStage .mutableCopied "dump_read_only"
  tell (.copying .readOnly)
  switchRegion
  copyRegion .readOnly tables
  -- in the order of discovery: a substitute that was replaced itself must come first
  (← session).replaced.toList.forM resolveReplaced
  let o ← output "dump_read_only"
  verifyEstimate (satAdd (← session).estimate.objectBytes o.advisories.other) "Objects"
  enter .readOnlyCopied

/-- Lets `former`, which the traversal never reported, end up where `substitute` does. -/
def recordReplaced (former substitute : Word) : SessionM Unit := do
  let s ← session
  if s.stage.before .readOnlyCopied then violate (.outOfOrder "record_regenerated_object")
  let catalog ← ofViolation (s.catalog.addAlias former substitute)
  update ({ · with catalog })

end SessionM

end SnapshotArchive
