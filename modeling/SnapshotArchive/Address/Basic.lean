import SnapshotArchive.Word
import SnapshotArchive.Text.Hex

/-!
Addresses in the three coordinate systems of a build. An address carries its system in its type, so
two systems mix only through a shift. The text of an address has all sixteen digits.
-/

namespace SnapshotArchive

/-- A coordinate system: the output buffer of this build, the dependency archive where it is mapped
    now, or the place an archive is designed to be mapped at later. -/
inductive Space where
  | buffer | mapped | requested
  deriving DecidableEq

/-- Name of a coordinate system in diagnostics. -/
def Space.name : Space → String
  | .buffer => "buffer"
  | .mapped => "mapped"
  | .requested => "requested"

/-- An address of one coordinate system. -/
@[ext] structure Addr (s : Space) where
  word : Word
  deriving DecidableEq

namespace Addr

variable {s : Space}

/-- The address as a number, `0 ≤ a.toNat < addressLimit`. -/
def toNat (a : Addr s) : Nat := a.word.toNat

/-- The address of a number `n`, if `n < addressLimit`. -/
def ofNat? (n : Nat) : Option (Addr s) := (Word.ofNat? n).map Addr.mk

theorem toNat_lt (a : Addr s) : a.toNat < addressLimit := a.word.toNat_lt

theorem toNat_inj {a b : Addr s} : a.toNat = b.toNat ↔ a = b :=
  ⟨fun h => Addr.ext (UInt64.toNat_inj.1 h), fun h => h ▸ rfl⟩

theorem toNat_ofNat? {n : Nat} {a : Addr s} (h : ofNat? n = some a) : a.toNat = n := by
  unfold ofNat? Word.ofNat? at h
  split at h <;> simp at h
  subst h
  rename_i hn
  exact UInt64.toNat_ofNat_of_lt' hn

/-- The address `bytes` further on, if there is one. -/
def add? (a : Addr s) (bytes : Nat) : Option (Addr s) := ofNat? (a.toNat + bytes)

/-- The number of bytes from `base` up to `a`; none if `a` is below `base`. -/
def offsetFrom? (a base : Addr s) : Option Nat :=
  if base.toNat ≤ a.toNat then some (a.toNat - base.toNat) else none

/-- The first address at or above `a` that is a multiple of `align`. -/
def alignUp? (a : Addr s) (align : Nat) : Option (Addr s) :=
  (SnapshotArchive.alignUp? a.toNat align).bind ofNat?

/-- The address as it stands in messages. -/
def display (a : Addr s) : String := Text.hexAddress a.toNat

/-- The address behind the name of its coordinate system. -/
def tagged (a : Addr s) : String := s.name ++ ":" ++ a.display

end Addr

end SnapshotArchive
