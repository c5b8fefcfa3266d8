/-!
Machine words of 64 bits and arithmetic on byte counts that must fit into one: rounding up to a
power of two, which fails where the result would not fit, and addition that stays at the largest
count instead of passing it.
-/

namespace SnapshotArchive

/-- Contents of one memory cell, and addresses that carry no coordinate system. -/
abbrev Word := UInt64

/-- Bytes in a word. -/
def wordBytes : Nat := 8

/-- The number of addresses; every address and byte count is below it. -/
def addressLimit : Nat := 0x10000000000000000

/-- The largest byte count. -/
def maxBytes : Nat := addressLimit - 1

/-- The word of a number `n < addressLimit`. -/
def Word.ofNat? (n : Nat) : Option Word :=
  if n < addressLimit then some (UInt64.ofNat n) else none

theorem Word.ofNat?_eq_some {n : Nat} (h : n < addressLimit) :
    Word.ofNat? n = some (UInt64.ofNat n) := if_pos h

theorem Word.ofNat?_eq_none {n : Nat} (h : addressLimit ≤ n) : Word.ofNat? n = none :=
  if_neg (Nat.not_lt.2 h)

/-- The word that is `n` bytes above `w`, around the end of the address space. -/
def Word.plus (w : Word) (n : Nat) : Word := w + UInt64.ofNat n

theorem Word.toNat_plus {w : Word} {n : Nat} (h : w.toNat + n < addressLimit) :
    (w.plus n).toNat = w.toNat + n := by
  unfold addressLimit at h
  rw [plus, UInt64.toNat_add, UInt64.toNat_ofNat_of_lt' (by simp only [UInt64.size]; omega),
    Nat.mod_eq_of_lt (by omega)]

/-- Rounds `value` up to a multiple of `align`, a power of two, by clearing the low bits of
    `value + (align - 1)`; `none` where that sum leaves the address space. -/
def alignUp? (value align : Nat) : Option Nat :=
  let raised := value + (align - 1)
  if raised < addressLimit then some (raised &&& (addressLimit - align)) else none

/-- Whether `value` is a multiple of `align`, a power of two: its low bits are zero. -/
def isAligned (value align : Nat) : Bool := value &&& (align - 1) == 0

/-- Whether `n` has exactly one bit set. -/
def isPowerOfTwo (n : Nat) : Bool := n != 0 && n &&& (n - 1) == 0

/-- The sum `a + b`, at most `maxBytes`. -/
def satAdd (a b : Nat) : Nat := min (a + b) maxBytes

theorem satAdd_of_lt {a b : Nat} (h : a + b < addressLimit) : satAdd a b = a + b := by
  unfold satAdd maxBytes; omega

/-- The number of `size`-sized pieces that cover `n`. -/
def ceilDiv (n size : Nat) : Nat := (n + size - 1) / size

end SnapshotArchive
