import SnapshotArchive.Ledger

/-!
How set bits are found in packed words. A scan looks at one word at a time: it shifts the word so that
bit `next` comes first, and either jumps to the next word, when nothing is left of this one, or goes
to the lowest bit that is left. A walk that turns bits down takes the lowest bit `b` of a copy of the
word and clears it there by `b &&& (b - 1)`, until the copy is zero.
-/

namespace SnapshotArchive

namespace Ledger

/-- A search for the set bits of `l` from bit `next` up to, but without, `stop`. -/
structure Scan (l : Ledger) where
  next : Nat
  stop : Nat
  stop_le : stop ≤ l.len

/-- The search of `l` from `start` up to `stop`, or up to the end of the ledger. -/
def scan (l : Ledger) (start stop : Nat) : Scan l := ⟨start, min stop l.len, Nat.min_le_right ..⟩

namespace Scan

variable {l : Ledger}

/-- A search at bit `i`. -/
def moveTo (s : Scan l) (i : Nat) : Scan l := { s with next := i }

/-- The next set bit, if one is left, and the search from there on. -/
def next? (s : Scan l) : Option Nat × Scan l :=
  if h : s.next < s.stop then
    have := l.word_lt_size (Nat.lt_of_lt_of_le h s.stop_le)
    let bits := l.words[s.next / 64] >>> (s.next % 64)
    if bits = 0 then (s.moveTo ((s.next / 64 + 1) * 64)).next?
    else
      let index := s.next + bits.ctz.toNat
      if index < s.stop then (some index, s.moveTo (index + 1)) else (none, s.moveTo s.stop)
  else (none, s.moveTo s.stop)
termination_by s.stop - s.next
decreasing_by simp only [moveTo]; omega

/-- A search that finds bit `i` goes on behind it, and comes closer to its end. -/
theorem next?_some {s s' : Scan l} {i : Nat} (h : s.next? = (some i, s')) :
    s.next ≤ i ∧ i < s.stop ∧ s' = s.moveTo (i + 1) := by
  fun_induction next? s with
  | case1 s _ _ bits _ ih =>
    obtain ⟨hle, hlt, rfl⟩ := ih h
    simp only [moveTo] at hle hlt
    exact ⟨by omega, hlt, rfl⟩
  | case2 s _ _ bits _ index hlt =>
    obtain ⟨hi, hs⟩ := Prod.mk.inj h
    rw [← Option.some.inj hi, ← hs]
    exact ⟨Nat.le_add_right .., hlt, rfl⟩
  | case3 => cases h
  | case4 => cases h

/-- All bits that a search still finds. -/
def rest (s : Scan l) : List Nat :=
  match _h : s.next? with
  | (some i, s') => i :: s'.rest
  | (none, _) => []
termination_by s.stop - s.next
decreasing_by
  obtain ⟨hle, hlt, rfl⟩ := next?_some _h
  simp only [moveTo]
  omega

end Scan

/-- A word `b ≠ 0` gets less when its lowest set bit is cleared. -/
theorem and_pred_lt {b : BitVec 64} (h : b ≠ 0) : (b &&& (b - 1)).toNat < b.toNat := by
  have hpos : 0 < b.toNat := Nat.pos_of_ne_zero fun h0 => h (BitVec.eq_of_toNat_eq h0)
  have hle : (1 : BitVec 64) ≤ b := by rw [BitVec.le_def]; exact hpos
  rw [BitVec.toNat_and, BitVec.toNat_sub_of_le hle]
  exact Nat.lt_of_le_of_lt Nat.and_le_right (Nat.sub_lt hpos (by decide))

section Retain

variable {m : Type → Type} [Monad m] {ε : Type} (keep : Nat → m (Except ε Bool))

/-- Asks `keep` about the bits of word `w` that are set in `bits`, the lowest one first, and clears
    in `l` those it turns down. -/
def retainBits (w : Nat) (bits : BitVec 64) (l : Ledger) : m (Except ε Unit × Ledger) :=
  if h : bits = 0 then pure (.ok (), l)
  else do
    let i := 64 * w + bits.ctz.toNat
    let left := bits &&& (bits - 1)
    have : left.toNat < bits.toNat := and_pred_lt h
    match ← keep i with
    | .error e => pure (.error e, l)
    | .ok true => retainBits w left l
    | .ok false => retainBits w left (l.erase i)
termination_by bits.toNat

/-- Asks `keep` about the set bits of the words `ws` in turn, up to its first error. -/
def retainWords : (ws : List Nat) → Ledger → m (Except ε Unit × Ledger)
  | [], l => pure (.ok (), l)
  | w :: ws, l => do
    match ← retainBits keep w (l.words[w]?.getD 0) l with
    | (.error e, l) => pure (.error e, l)
    | (.ok (), l) => retainWords ws l

/-- Asks `keep` about the set bits of all words. -/
def retainByWords (l : Ledger) : m (Except ε Unit × Ledger) :=
  retainWords keep (List.range l.words.size) l

end Retain

end Ledger

end SnapshotArchive
