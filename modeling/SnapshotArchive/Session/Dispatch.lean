import SnapshotArchive.Session.Copying

/-!
Dispatch tables of the archive. Objects of some kinds start with a pointer to a table that all objects
of their kind share; the traversal does not report it. Copies of the tables are put into the archive,
and the copies of the objects point there.
-/

namespace SnapshotArchive

/-- The entries of the table of a kind, which are stored as they are. -/
structure DispatchTemplate where
  kind : ObjectKind
  entries : List Word
  deriving DecidableEq

/-- Where the tables are. -/
abbrev DispatchTables := KindMap (Addr .buffer)

namespace DispatchTables

/-- Bytes of the tables of `templates`. -/
def estimate (templates : List DispatchTemplate) : Nat :=
  templates.foldr (fun t n => t.entries.length * wordBytes + n) 0

/-- All objects of a kind have the table of the kind. -/
def provider (tables : DispatchTables) : TableProvider := fun kind _ => tables.get? kind

end DispatchTables

namespace SessionM

/-- Puts the table of `t` into the current region. -/
def prepareTable (t : DispatchTemplate) : SessionM (Addr .buffer) := do
  let table ← allocateOther (t.entries.length * wordBytes)
  t.entries.zipIdx.forM fun (entry, i) => writeWord ⟨table.word.plus (i * wordBytes)⟩ entry
  tell (.preparedTable t.kind table t.entries.length)
  return table

/-- Puts tables into the current region; of two tables for one kind the later one counts. -/
def prepareTables (templates : List DispatchTemplate) : SessionM DispatchTables :=
  templates.foldlM (fun tables t => do return tables.insert t.kind (← prepareTable t)) .empty

end SessionM

end SnapshotArchive
