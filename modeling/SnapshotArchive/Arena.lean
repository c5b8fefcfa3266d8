import SnapshotArchive.Failure

/-!
Bump allocation in the two regions of an output buffer. The mutable region grows from the bottom; the
read-only region follows it once the mutable one is packed, that is, once its top is rounded up to
the region alignment and fixed there. All places are byte offsets from the bottom of the buffer.
-/

namespace SnapshotArchive

/-- Alignment of every allocation. -/
def objectAlign : Nat := 8

/-- Bytes allocated at the very bottom, so that no object lives there. -/
def bottomPadding : Nat := 16

/-- A part of the buffer that is filled from `base` up to `top` and may grow to `limit`. -/
structure Region where
  kind : RegionKind
  base : Nat
  top : Nat
  limit : Nat
  packed : Bool
  deriving DecidableEq

namespace Region

/-- A region from `base` to `limit` in which nothing is allocated yet: `top = base`. -/
def start (kind : RegionKind) (base limit : Nat) : Region := ⟨kind, base, base, limit, false⟩

/-- The number of allocated bytes, `top - base`. -/
def used (r : Region) : Nat := r.top - r.base

/-- The number of bytes the region may grow to, `limit - base`. -/
def reserved (r : Region) : Nat := r.limit - r.base

/-- The number of bytes that are left, `limit - top`. -/
def available (r : Region) : Nat := r.limit - r.top

/-- Rounds the top up to a multiple of `alignment`, but not past `bufferLength`, and ends the region
    there. -/
def pack (r : Region) (alignment bufferLength : Nat) : Region :=
  if r.packed then r
  else
    let top := min ((alignUp? r.top alignment).getD bufferLength) bufferLength
    { r with top := top, limit := top, packed := true }

end Region

/-- The regions of a buffer of `length` bytes, and which of them allocations go to. -/
structure Arena where
  length : Nat
  alignment : Nat
  mutable : Region
  readOnly : Region
  current : RegionKind
  deriving DecidableEq

namespace Arena

/-- The region of a kind. -/
def region (a : Arena) : RegionKind → Region
  | .mutable => a.mutable
  | .readOnly => a.readOnly

/-- Replaces the region that allocations go to by `r`. -/
def setCurrent (a : Arena) (r : Region) : Arena :=
  match a.current with
  | .mutable => { a with mutable := r }
  | .readOnly => { a with readOnly := r }

/-- The region that allocations go to, by `a.current`. -/
def currentRegion (a : Arena) : Region := a.region a.current

theorem region_setCurrent (a : Arena) (r : Region) (kind : RegionKind) :
    (a.setCurrent r).region kind = if a.current = kind then r else a.region kind := by
  cases h : a.current <;> cases kind <;> simp [setCurrent, region, h]

@[simp] theorem current_setCurrent (a : Arena) (r : Region) :
    (a.setCurrent r).current = a.current := by
  cases h : a.current <;> simp [setCurrent, h]

/-- Offset just past the last allocated byte of `a.currentRegion`. -/
def top (a : Arena) : Nat := a.currentRegion.top

/-- Takes `bytes` bytes, rounded up to the object alignment, from the current region; answers their
    offset. -/
def allocate (a : Arena) (bytes : Nat) : Except BuildError (Nat × Arena) :=
  let region := a.currentRegion
  match alignUp? bytes objectAlign with
  | some size =>
    if size ≤ region.available then
      .ok (region.top, a.setCurrent { region with top := region.top + size })
    else .error (.outOfSpace a.current bytes region.available)
  | none => .error (.outOfSpace a.current bytes region.available)

/-- The arena of an empty buffer of `length` bytes, before the bottom padding is taken. -/
def bare (length alignment : Nat) : Arena where
  length := length
  alignment := alignment
  mutable := .start .mutable 0 length
  readOnly := .start .readOnly length length
  current := .mutable

/-- The arena of a fresh buffer of `length` bytes, with `bottomPadding` bytes taken. -/
def start (length alignment : Nat) : Except BuildError Arena :=
  ((bare length alignment).allocate bottomPadding).map (·.2)

/-- Stops allocation from `a.currentRegion`. -/
def pack (a : Arena) : Arena := a.setCurrent (a.currentRegion.pack a.alignment a.length)

/-- Packs the mutable region and goes on to the read-only one. -/
def startReadOnly (a : Arena) : Except Violation Arena :=
  match a.current with
  | .mutable =>
    let packed := a.pack
    .ok { packed with
      readOnly := .start .readOnly packed.mutable.limit a.length
      current := .readOnly }
  | .readOnly => .error (.outOfOrder "start_next_region")

end Arena

end SnapshotArchive
