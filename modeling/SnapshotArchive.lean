import SnapshotArchive.Address.Basic
import SnapshotArchive.Address.Range
import SnapshotArchive.Address.Shift
import SnapshotArchive.Arena
import SnapshotArchive.Buffer
import SnapshotArchive.Catalog.Basic
import SnapshotArchive.Catalog.CopyList
import SnapshotArchive.Catalog.Entry
import SnapshotArchive.Estimate
import SnapshotArchive.Failure
import SnapshotArchive.Graph.Heap
import SnapshotArchive.Graph.Host
import SnapshotArchive.Kind
import SnapshotArchive.KindMap
import SnapshotArchive.Ledger
import SnapshotArchive.LedgerScan
import SnapshotArchive.Report.Event
import SnapshotArchive.Report.Filter
import SnapshotArchive.Report.MapEntry
import SnapshotArchive.Session.Basic
import SnapshotArchive.Session.Build
import SnapshotArchive.Session.Copying
import SnapshotArchive.Session.Discovery
import SnapshotArchive.Session.Dispatch
import SnapshotArchive.Session.Map
import SnapshotArchive.Session.Offsets
import SnapshotArchive.Session.Output
import SnapshotArchive.Session.Reservation
import SnapshotArchive.Session.Shifting
import SnapshotArchive.Session.Slots
import SnapshotArchive.Session.Wiring
import SnapshotArchive.Settings.Basic
import SnapshotArchive.Settings.Notation
import SnapshotArchive.Settings.Reader
import SnapshotArchive.Sorting
import SnapshotArchive.Stats.Basic
import SnapshotArchive.Stats.Report
import SnapshotArchive.Text.Document
import SnapshotArchive.Text.Hex
import SnapshotArchive.Text.Percent
import SnapshotArchive.Text.Printable
import SnapshotArchive.Text.Quoted
import SnapshotArchive.UsageMeter
import SnapshotArchive.Word
import SnapshotArchive.Words
import SnapshotArchive.Proofs.LedgerOrder
import SnapshotArchive.Proofs.LedgerScans
import SnapshotArchive.Proofs.Milestones
import SnapshotArchive.Proofs.MarkedWords
import SnapshotArchive.Proofs.NullPointers
import SnapshotArchive.Proofs.Rounding
import SnapshotArchive.Proofs.Traversal
import SnapshotArchive.Proofs.Allocation
import SnapshotArchive.Proofs.Assembling
import SnapshotArchive.Proofs.Coverage
import SnapshotArchive.Proofs.Addresses
import SnapshotArchive.Proofs.Sufficiency
import SnapshotArchive.Proofs.Surveying
import SnapshotArchive.Proofs.Defects
import SnapshotArchive.Proofs.Retrying
import SnapshotArchive.Proofs.Steady
import SnapshotArchive.Proofs.Changes
import SnapshotArchive.Proofs.Spans
import SnapshotArchive.Proofs.ChainOffsets
import SnapshotArchive.Proofs.RequestedRanges
import SnapshotArchive.Proofs.Reaching
import SnapshotArchive.Proofs.Strays
import SnapshotArchive.Proofs.Conflicts
import SnapshotArchive.Proofs.Precedence
import SnapshotArchive.Proofs.HandmadeWords
import SnapshotArchive.Proofs.Refusals
import SnapshotArchive.Proofs.LooseWords
import SnapshotArchive.Proofs.FreshMemory
import SnapshotArchive.Proofs.PlainWords
import SnapshotArchive.Proofs.PointerOffsets
import SnapshotArchive.Proofs.Preorder
import SnapshotArchive.Proofs.LedgerSets
import SnapshotArchive.Proofs.ListedFields
import SnapshotArchive.Proofs.BumpAllocation
import SnapshotArchive.Proofs.OutputOwners
import SnapshotArchive.Proofs.HeapFaults
import SnapshotArchive.Proofs.MapTiling
import SnapshotArchive.Proofs.ByteAccounts
