import SnapshotArchive.Address.Range
import SnapshotArchive.Kind

/-!
What is known about one source object: what happens to it, where its copy went, and which bits of
its region's ledger are its own.
-/

namespace SnapshotArchive

/-- Where pointers to a source object end up: at its copy, at the object in the dependency archive,
    or nowhere. -/
inductive Resolution where
  | output (addr : Addr .buffer)
  | existing (addr : Addr .mapped)
  | null
  deriving DecidableEq

/-- The word that such a pointer becomes; `0` if it leads nowhere. -/
def Resolution.word : Resolution → Word
  | output addr => addr.word
  | existing addr => addr.word
  | null => 0

/-- Bits from `start` up to, but without, `stop`. -/
structure BitRange where
  start : Nat
  stop : Nat
  deriving DecidableEq

/-- The account of one source object. -/
structure SourceEntry where
  source : Word
  disposition : Disposition
  kind : ObjectKind
  size : Nat
  readOnly : Bool
  /-- A pointer field of the object is in the ledger. -/
  hasPointers : Bool
  /-- The entry stands in for an object that was replaced. -/
  isAlias : Bool
  /-- Where the copy is, once it is made. -/
  output? : Option (Addr .buffer)
  /-- The object's bits in the ledger of its region, once it is on that region's list. -/
  bits? : Option BitRange
  deriving DecidableEq

namespace SourceEntry

/-- The account of an object that was just found. -/
def found (source : Word) (disposition : Disposition) (kind : ObjectKind) (size : Nat)
    (readOnly : Bool) : SourceEntry where
  source := source
  disposition := disposition
  kind := kind
  size := size
  readOnly := readOnly
  hasPointers := false
  isAlias := false
  output? := none
  bits? := none

/-- Whether the object is copied. -/
def isCopied (e : SourceEntry) : Bool := e.disposition == .copy

/-- The flags as bits: `1` read-only, `2` has pointers, `4` alias. -/
def flags (e : SourceEntry) : Nat := e.readOnly.toNat + 2 * e.hasPointers.toNat + 4 * e.isAlias.toNat

/-- Where pointers to the object end up; none if its copy is still to be made. -/
def resolution? (e : SourceEntry) : Option Resolution :=
  match e.disposition with
  | .copy => e.output?.map .output
  | .aliasToExisting => some (.existing ⟨e.source⟩)
  | .nullOut => some .null

/-- The account of an object that `e` replaces: all but the address, the ledger bits and the flags
    that belong to `e` itself. -/
def standIn (e : SourceEntry) (former : Word) : SourceEntry :=
  { e with source := former, hasPointers := false, isAlias := true, bits? := none }

end SourceEntry

end SnapshotArchive
