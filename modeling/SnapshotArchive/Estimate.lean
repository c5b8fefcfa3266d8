import SnapshotArchive.Arena

/-!
Upper bounds on the size of an archive, summed up before anything is copied. Sums stay at the largest
byte count instead of passing it.
-/

namespace SnapshotArchive

/-- Bytes that the host expects to need for what it builds itself. -/
structure Advisories where
  stringTable : Nat
  dictionary : Nat
  other : Nat
  deriving DecidableEq

/-- The three advisories together, at most `maxBytes`. -/
def Advisories.tableBytes (a : Advisories) : Nat := satAdd (satAdd a.stringTable a.dictionary) a.other

/-- Bytes counted for objects so far. -/
structure SizeEstimate where
  objectBytes : Nat
  deriving DecidableEq

namespace SizeEstimate

/-- Regions of an output buffer; each may waste one unit of its alignment. -/
def regions : Nat := 2

/-- Nothing counted. -/
def zero : SizeEstimate := ⟨0⟩

/-- Counts `bytes` that are summed up elsewhere. -/
def addBytes (e : SizeEstimate) (bytes : Nat) : SizeEstimate := ⟨satAdd e.objectBytes bytes⟩

/-- Counts an object of `size` bytes, rounded up to the object alignment. -/
def addObject (e : SizeEstimate) (size : Nat) : SizeEstimate :=
  e.addBytes ((alignUp? size objectAlign).getD maxBytes)

/-- Counts the lookup record in front of a type descriptor. -/
def addDescriptor (e : SizeEstimate) : SizeEstimate := e.addObject wordBytes

/-- Objects, the advisories `a`, and one unit of `alignment` as slack for each of the `regions`. -/
def sum (e : SizeEstimate) (a : Advisories) (alignment : Nat) : Nat :=
  satAdd (satAdd e.objectBytes a.tableBytes) (min (regions * alignment) maxBytes)

/-- Bytes to reserve: `e.sum a alignment` rounded up to `alignment`, or the last multiple of it. -/
def total (e : SizeEstimate) (a : Advisories) (alignment : Nat) : Nat :=
  (alignUp? (e.sum a alignment) alignment).getD (addressLimit - alignment)

end SizeEstimate

end SnapshotArchive
