import SnapshotArchive.Failure
import SnapshotArchive.Text.Document

/-!
Settings of a build, and when they are usable.
-/

namespace SnapshotArchive

/-- Settings that shape an archive. -/
structure Settings where
  /-- Where the first archive of a chain is designed to be mapped. -/
  requestedBase : Word
  /-- Alignment of each region and of the output buffer. -/
  regionAlignment : Nat
  /-- Bytes to estimate for objects that are not measured. -/
  placeholderBytes : Nat
  /-- Whether the archive map is logged at the end. -/
  logMap : Bool
  deriving DecidableEq

namespace Settings

/-- The settings of a build that asks for nothing else. -/
def standard : Settings := ⟨0x800000000, 0x10000, 0, false⟩

/-- Checks that regions are aligned to a power of two of at least a word, and that the base address
    is aligned to it. -/
def validate (s : Settings) : Except SettingsError Unit :=
  if !isPowerOfTwo s.regionAlignment || decide (s.regionAlignment < wordBytes) then
    .error (.regionAlignment s.regionAlignment)
  else if !isAligned s.requestedBase.toNat s.regionAlignment then
    .error (.unalignedBase s.requestedBase.toNat)
  else .ok ()

/-- The settings as a document. -/
def document (s : Settings) : Text.Document :=
  .members [("requested_base_address", .count s.requestedBase.toNat),
    ("region_alignment", .count s.regionAlignment),
    ("placeholder_estimate_bytes", .count s.placeholderBytes),
    ("log_map", .truth s.logMap)]

end Settings

end SnapshotArchive
