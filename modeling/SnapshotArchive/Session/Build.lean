import SnapshotArchive.Session.Discovery
import SnapshotArchive.Session.Dispatch
import SnapshotArchive.Session.Offsets
import SnapshotArchive.Session.Shifting
import SnapshotArchive.Session.Slots
import SnapshotArchive.Session.Wiring

/-!
The whole way from roots to an archive. The host may freeze the copies after they are wired and before
they are shifted.
-/

namespace SnapshotArchive

namespace SessionM

/-- All steps from `roots` up to the freezing of the copies. -/
def assemble (roots : List Word) (advisories : Advisories) (templates : List DispatchTemplate) :
    SessionM Unit := do
  gather roots
  reserveBuffer
    { advisories with other := satAdd advisories.other (DispatchTables.estimate templates) }
  let tables ← prepareTables templates
  copyMutable tables.provider
  copyReadOnly tables.provider
  wire

/-- Makes an archive of what is reachable from `roots`; `freeze` runs between the two relocations.
    -/
def build (roots : List Word) (advisories : Advisories) (templates : List DispatchTemplate)
    (freeze : SessionM Unit) : SessionM Unit := do
  assemble roots advisories templates
  freeze
  relocate

end SessionM

end SnapshotArchive
