import SnapshotArchive.Address.Range

/-!
Constant shifts from one coordinate system to another. A shift is the only way between systems, and
it refuses to leave the address space.
-/

namespace SnapshotArchive

/-- The same number of bytes added to every address of `source`. -/
structure Shift (source target : Space) where
  amount : Int
  deriving DecidableEq

/-- A shift of `addr` by `amount` that leaves the address space. -/
structure ShiftOverflow where
  addr : Word
  amount : Int
  deriving DecidableEq

/-- Text of an overflow. -/
def ShiftOverflow.message (e : ShiftOverflow) : String :=
  "Shifting " ++ Text.hex e.addr.toNat ++ " by " ++ toString e.amount ++
    " leaves the address space"

namespace Shift

variable {s t : Space}

/-- The shift that takes `origin` to `image`. -/
def between (origin : Addr s) (image : Addr t) : Shift s t := ⟨image.toNat - origin.toNat⟩

/-- Shifts the address `a` by the amount of `δ`; fails where the sum leaves the address space. -/
def apply (δ : Shift s t) (a : Addr s) : Except ShiftOverflow (Addr t) :=
  let shifted : Int := a.toNat + δ.amount
  if 0 ≤ shifted ∧ shifted < addressLimit then .ok ⟨UInt64.ofNat shifted.toNat⟩
  else .error ⟨a.word, δ.amount⟩

theorem toNat_apply {δ : Shift s t} {a : Addr s} {b : Addr t} (h : δ.apply a = .ok b) :
    (b.toNat : Int) = a.toNat + δ.amount := by
  unfold apply at h
  dsimp only at h
  split at h
  · rename_i hb
    cases h
    have hlt : (a.toNat + δ.amount).toNat < addressLimit := by omega
    change ((UInt64.ofNat (a.toNat + δ.amount).toNat).toNat : Int) = _
    rw [UInt64.toNat_ofNat_of_lt' hlt]
    omega
  · cases h

/-- A shift keeps the order of addresses. -/
theorem apply_le {δ : Shift s t} {a a' : Addr s} {b b' : Addr t} (h : δ.apply a = .ok b)
    (h' : δ.apply a' = .ok b') (le : a.toNat ≤ a'.toNat) : b.toNat ≤ b'.toNat := by
  have := toNat_apply h
  have := toNat_apply h'
  omega

/-- Shifts both bounds of `r`; the bottom is tried first. -/
def applyRange (δ : Shift s t) (r : AddrRange s) : Except ShiftOverflow (AddrRange t) :=
  match hb : δ.apply r.bottom with
  | .error e => .error e
  | .ok bottom =>
    match ht : δ.apply r.top with
    | .error e => .error e
    | .ok top => .ok ⟨bottom, top, apply_le hb ht r.bottom_le_top⟩

/-- The shift as it stands in messages: a negative amount is shown as the 128 bits of its two's
    complement, behind a plus sign all the same. -/
def tagged (δ : Shift s t) : String :=
  s.name ++ " -> " ++ t.name ++ ": +" ++ Text.hex (δ.amount % 0x100000000000000000000000000000000).toNat

end Shift

end SnapshotArchive
