import SnapshotArchive.Session.Basic

/-!
The map of the archive of a session: its regions, the objects in them, what lies between the objects,
and the pointer bitmap. The dumps of a region follow each other without gaps from its base to its limit.
-/

namespace SnapshotArchive

namespace Session

/-- The copies among the objects of the region `kind`, with their byte offsets. -/
def placed (s : Session) (o : Output) (kind : RegionKind) : List (Nat × SourceEntry) :=
  (s.copyList kind).sources.toList.filterMap fun source => do
    let entry ← s.catalog.get? source
    let target ← entry.output?
    return (target.toNat - o.buffer.bottom.toNat, entry)

/-- A dump of the bytes from `start` up to `stop`, which must be in order and in the buffer. -/
def dump (o : Output) (start stop : Nat) : Except Fault MapEntry :=
  if start ≤ stop ∧ stop ≤ o.buffer.length then
    .ok (.memory (o.requestedPlace start) o.buffer.words start stop)
  else .error .outOfBounds

/-- The entries of copies: before each, the bytes from the start of the one before. Answers also where
    the last copy starts and ends. -/
def objectEntries (s : Session) (o : Output) :
    (base limit : Nat) → List (Nat × SourceEntry) → Except Fault (List MapEntry × Nat × Nat)
  | base, limit, [] => .ok ([], base, limit)
  | base, _, (offset, entry) :: rest => do
    let gap ← dump o base offset
    let line := MapEntry.object (o.requestedPlace offset) entry.kind entry.size
      ((s.host.describe entry.source).getD "")
    let (entries, last) ← s.objectEntries o offset (offset + entry.size) rest
    return (gap :: line :: entries, last)

/-- The entries of what follows the last copy of `region`, from `start` on. -/
def restEntries (o : Output) (region : Region) (start : Nat) : Except Fault (List MapEntry) := do
  if start < region.limit then
    return [.misc (o.requestedPlace start) (region.limit - start), ← dump o start region.limit]
  else return []

/-- The entries of the region `kind`. -/
def regionEntries (s : Session) (o : Output) (kind : RegionKind) : Except Fault (List MapEntry) := do
  let region := o.arena.region kind
  let heading := MapEntry.region kind (o.requestedPlace region.base) (o.requestedPlace region.top)
    region.used
  let (objects, start, stop) ← s.objectEntries o region.base region.base (s.placed o kind)
  let last ← dump o start stop
  return heading :: objects ++ last :: (← restEntries o region stop)

/-- The map; nothing before the buffer is reserved. -/
def archiveMap (s : Session) : Except Fault (List MapEntry) := do
  match s.output? with
  | none => return []
  | some o =>
    let mutable ← s.regionEntries o .mutable
    let readOnly ← s.regionEntries o .readOnly
    return MapEntry.title s.isIncremental :: mutable ++ readOnly ++
      [.bitmap o.pointers, .bitmapBytes o.pointers, .close]

end Session

namespace SessionM

/-- Tells the map. -/
def logMap : SessionM Unit := do
  match (← session).archiveMap with
  | .ok entries => entries.forM fun entry => tell (.map entry)
  | .error f => throw (.fault f)

/-- Tells the statistics, as shares of the used bytes of both regions. -/
def printStats : SessionM Unit := do
  let s ← session
  let used (kind : RegionKind) : Nat := (s.output?.map fun o => (o.arena.region kind).used).getD 0
  (Event.ofStats s.stats (used .mutable) (used .readOnly)).forM tell

end SessionM

end SnapshotArchive
