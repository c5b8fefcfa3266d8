import SnapshotArchive.Words
import SnapshotArchive.Address.Shift
import SnapshotArchive.Failure

/-!
The output buffer: one reservation of zeros at a fixed address, in which the archive is put together.
Places in it are byte offsets from its bottom.
-/

namespace SnapshotArchive

/-- How reservations are answered: each lies at `bottom` and has at most `capacity` bytes. -/
structure Reservations where
  bottom : Addr .buffer
  capacity : Nat
  fits : bottom.toNat + capacity < addressLimit

/-- The longest reservation that may be asked for, alignment included. -/
def maxReservation : Nat := 0x7fffffffffffffff

/-- A reserved buffer and what it holds. -/
structure Buffer where
  bottom : Addr .buffer
  length : Nat
  words : Words
  fits : bottom.toNat + length < addressLimit

namespace Buffer

/-- Whether `length` bytes at a multiple of `align` can be reserved. -/
def canReserve (r : Reservations) (length align : Nat) : Bool :=
  isPowerOfTwo align &&
    ((alignUp? length align).any (· ≤ maxReservation) && decide (length ≤ r.capacity))

/-- Reserves `length` bytes, and at least one unit of the alignment. -/
def reserve (r : Reservations) (length align : Nat) : Except BuildError Buffer :=
  let length := max length align
  if h : canReserve r length align = true then
    .ok
      { bottom := r.bottom
        length := length
        words := .zero
        fits := by
          have := r.fits
          simp only [canReserve, Bool.and_eq_true, decide_eq_true_eq] at h
          omega }
  else .error (.reservationFailed length align)

/-- The address `bottom + offset`. -/
def addrAt (b : Buffer) (offset : Nat) : Addr .buffer := ⟨b.bottom.word.plus offset⟩

/-- The addresses of the buffer, from `bottom` up to `bottom + length`. -/
def range (b : Buffer) : AddrRange .buffer where
  bottom := b.bottom
  top := ⟨UInt64.ofNat (b.bottom.toNat + b.length)⟩
  bottom_le_top := by
    change _ ≤ (UInt64.ofNat (b.bottom.toNat + b.length)).toNat
    rw [UInt64.toNat_ofNat_of_lt' b.fits]
    omega

/-- The byte offset `w - bottom` of an address `w` in the buffer. -/
def offsetOf? (b : Buffer) (w : Word) : Option Nat :=
  if b.range.contains w then some (w.toNat - b.bottom.toNat) else none

/-- The byte offset of `slot`, if it is an aligned word of the buffer. -/
def slotOffset (b : Buffer) (slot : Addr .buffer) : Except Violation Nat :=
  match b.offsetOf? slot.word with
  | some offset =>
    if isAligned offset wordBytes && decide (offset + wordBytes ≤ b.length) then .ok offset
    else .error (.slotOutsideBuffer slot.word)
  | none => .error (.slotOutsideBuffer slot.word)

/-- The word at byte `offset`, which is word `offset / wordBytes`. -/
def read (b : Buffer) (offset : Nat) : Word := b.words.read (offset / wordBytes)

/-- Stores `w` at byte `offset`. -/
def write (b : Buffer) (offset : Nat) (w : Word) : Buffer :=
  { b with words := b.words.write (offset / wordBytes) w }

/-- The slot is accepted at offset `n` exactly if it lies there, `n` is aligned, and `n + wordBytes
    ≤ b.length`. -/
theorem slotOffset_eq_ok {b : Buffer} {slot : Addr .buffer} {n : Nat} :
    b.slotOffset slot = .ok n ↔
      b.offsetOf? slot.word = some n ∧ isAligned n wordBytes = true ∧ n + wordBytes ≤ b.length := by
  unfold slotOffset
  cases b.offsetOf? slot.word with
  | none => simp
  | some m =>
    by_cases h : isAligned m wordBytes = true ∧ m + wordBytes ≤ b.length
    · simp only [h, decide_true, Bool.and_self, if_true, Except.ok.injEq, Option.some.injEq]
      exact ⟨fun e => e ▸ ⟨rfl, h⟩, fun e => e.1⟩
    · have hc : (isAligned m wordBytes && decide (m + wordBytes ≤ b.length)) = false := by
        rw [Bool.eq_false_iff]
        simpa using h
      simp only [hc, Bool.false_eq_true, if_false, reduceCtorEq, Option.some.injEq, false_iff]
      rintro ⟨rfl, hn⟩
      exact h hn

/-- The word at byte `offset`, which must lie in the buffer: `offset + wordBytes ≤ b.length`. -/
def read? (b : Buffer) (offset : Nat) : Except Fault Word :=
  if offset + wordBytes ≤ b.length then .ok (b.read offset) else .error .outOfBounds

/-- Stores `w` at byte `offset`, which must lie in the buffer. -/
def write? (b : Buffer) (offset : Nat) (w : Word) : Except Fault Buffer :=
  if offset + wordBytes ≤ b.length then .ok (b.write offset w) else .error .outOfBounds

/-- Copies `size` bytes of the words `source 0`, `source 1`, … to a byte offset. -/
def copyIn (b : Buffer) (offset : Nat) (source : Nat → Word) (size : Nat) : Buffer :=
  { b with words := b.words.copyBytes (offset / wordBytes) source size }

end Buffer

end SnapshotArchive
