import SnapshotArchive.Stats.Basic
import SnapshotArchive.Text.Document
import SnapshotArchive.Text.Percent

/-!
The statistics as a document and as a table. The table has a row for every kind that occurs, then one
for other data, and shares of the packed size of both regions.
-/

namespace SnapshotArchive

open Text

/-- A tally as a document. -/
def Tally.document (t : Tally) : Document :=
  .members [("count", .count t.count), ("bytes", .count t.bytes)]

/-- The statistics of a region as a document. -/
def RegionStats.document (s : RegionStats) : Document :=
  .members [("objects", .members (s.objects.entries.map fun (k, t) => (k.name, t.document))),
    ("other", s.other.document)]

namespace Stats

/-- The statistics as a document. -/
def document (s : Stats) : Document :=
  .members [("mutable", s.mutable.document), ("read_only", s.readOnly.document)]

/-- Names of the columns. -/
def columns : String :=
  "                        ro_cnt   ro_bytes     % |   rw_cnt   rw_bytes     % |" ++
    "  all_cnt  all_bytes     %"

/-- The line between the names of the columns and the rows. -/
def rule : String :=
  fill 20 '-' ++ "+" ++ fill 27 '-' ++ "+" ++ fill 27 '-' ++ "+" ++ fill 26 '-'

/-- Count, bytes and share of `whole` of the tally `t`, in the columns of one region. -/
def cells (t : Tally) (whole : Nat) : String :=
  padLeft 8 (toString t.count) ++ " " ++ padLeft 10 (toString t.bytes) ++ " " ++
    padLeft 5 (percent t.bytes whole)

/-- A row: what is read-only, what is mutable, and both together. -/
def row (name : String) (readOnly mutable : Tally) (whole : Nat) : String :=
  padRight 20 name ++ cells readOnly whole ++ " | " ++ cells mutable whole ++ " | " ++
    cells (readOnly.plus mutable) whole

/-- The rows of the kinds that occur. -/
def kindRows (s : Stats) (whole : Nat) : List String :=
  ObjectKind.all.filterMap fun k =>
    let readOnly := s.readOnly.tally k
    let mutable := s.mutable.tally k
    if readOnly.count + mutable.count = 0 then none
    else some (row k.name readOnly mutable whole)

/-- The table, given the packed size of both regions. -/
def table (s : Stats) (mutableUsed readOnlyUsed : Nat) : List String :=
  let whole := mutableUsed + readOnlyUsed
  ["Detailed metadata info (excluding heap regions):", columns, rule] ++ s.kindRows whole ++
    [row "Other" s.readOnly.other s.mutable.other whole,
     "Total " ++ padLeft 14 (toString mutableUsed) ++ " bytes in rw, " ++ toString readOnlyUsed ++
       " bytes in ro (" ++ toString s.mutable.bytes ++ " and " ++ toString s.readOnly.bytes ++
       " bytes of objects)"]

end Stats

end SnapshotArchive
