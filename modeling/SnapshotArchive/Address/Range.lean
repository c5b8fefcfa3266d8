import SnapshotArchive.Address.Basic

/-!
Half-open address ranges. The bounds of a range are in order by construction.
-/

namespace SnapshotArchive

/-- The addresses from `bottom` up to, but without, `top`. -/
structure AddrRange (s : Space) where
  bottom : Addr s
  top : Addr s
  bottom_le_top : bottom.toNat ≤ top.toNat
  deriving DecidableEq

namespace AddrRange

variable {s : Space}

/-- The range from `bottom` up to, but without, `top`, if `bottom ≤ top`. -/
def ofBounds? (bottom top : Addr s) : Option (AddrRange s) :=
  if h : bottom.toNat ≤ top.toNat then some ⟨bottom, top, h⟩ else none

/-- The range of `length` bytes from `bottom` on, if `bottom + length` is an address. -/
def ofLength? (bottom : Addr s) (length : Nat) : Option (AddrRange s) :=
  (bottom.add? length).bind (ofBounds? bottom)

/-- The number of bytes in the range, `top - bottom`. -/
def length (r : AddrRange s) : Nat := r.top.toNat - r.bottom.toNat

/-- Whether the range holds no byte. -/
def isEmpty (r : AddrRange s) : Bool := r.bottom == r.top

/-- Whether `bottom ≤ w < top`, for a bare address `w`. -/
def contains (r : AddrRange s) (w : Word) : Bool :=
  r.bottom.toNat ≤ w.toNat && w.toNat < r.top.toNat

/-- Takes a bare address `w` into the coordinate system of `r`, if it lies in `r`. -/
def locate? (r : AddrRange s) (w : Word) : Option (Addr s) :=
  if r.contains w then some ⟨w⟩ else none

/-- The range behind the name of its coordinate system. -/
def tagged (r : AddrRange s) : String :=
  s.name ++ ":[" ++ r.bottom.display ++ " - " ++ r.top.display ++ ")"

theorem contains_iff {r : AddrRange s} {w : Word} :
    r.contains w = true ↔ r.bottom.toNat ≤ w.toNat ∧ w.toNat < r.top.toNat := by
  simp [contains]

theorem bottom_add_length (r : AddrRange s) : r.bottom.toNat + r.length = r.top.toNat := by
  have := r.bottom_le_top
  unfold length
  omega

end AddrRange

end SnapshotArchive
