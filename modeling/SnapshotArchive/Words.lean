import SnapshotArchive.Word
import Std.Data.TreeMap

/-!
Memory as words by index. Memory starts out zero, and only words that are not zero take up room, so
that a large reservation costs nothing until it is written.
-/

namespace SnapshotArchive

/-- A memory of words; a word without an entry is zero. -/
structure Words where
  cells : Std.TreeMap Nat Word

namespace Words

/-- Memory of zeros. -/
def zero : Words := ⟨∅⟩

/-- The word at index `i`. -/
def read (m : Words) (i : Nat) : Word := m.cells.getD i 0

/-- Stores a word at index `i`. -/
def write (m : Words) (i : Nat) (w : Word) : Words :=
  ⟨if w = 0 then m.cells.erase i else m.cells.insert i w⟩

@[simp] theorem read_zero (i : Nat) : zero.read i = 0 := by simp [zero, read]

theorem read_write (m : Words) (i j : Nat) (w : Word) :
    (m.write i w).read j = if i = j then w else m.read j := by
  unfold write read
  by_cases h : w = 0
  · simp only [h, if_true, Std.TreeMap.getD_erase, Nat.compare_eq_eq]
  · simp only [h, if_false, Std.TreeMap.getD_insert, Nat.compare_eq_eq]

@[simp] theorem read_write_self (m : Words) (i : Nat) (w : Word) : (m.write i w).read i = w := by
  simp [read_write]

theorem read_write_ne (m : Words) {i j : Nat} (w : Word) (h : i ≠ j) :
    (m.write i w).read j = m.read j := by
  simp [read_write, h]

/-- The `k` lowest bytes of `fresh` under the remaining bytes of `old`. -/
def splice (k : Nat) (fresh old : Word) : Word :=
  let low : Word := UInt64.ofNat (1 <<< (8 * k) - 1)
  (fresh &&& low) ||| (old &&& ~~~low)

/-- Stores the words `source 0`, `source 1`, … from index `start` on, `count` of them. -/
def writeAll (m : Words) (start : Nat) (source : Nat → Word) (count : Nat) : Words :=
  (List.range count).foldl (fun m i => m.write (start + i) (source i)) m

/-- Copies `bytes` bytes of the words `source 0`, `source 1`, … to index `start`; of a last word
    that is covered in part, the bytes above stay. -/
def copyBytes (m : Words) (start : Nat) (source : Nat → Word) (bytes : Nat) : Words :=
  let full := bytes / wordBytes
  let filled := m.writeAll start source full
  let rest := bytes % wordBytes
  if rest = 0 then filled
  else filled.write (start + full) (splice rest (source full) (filled.read (start + full)))

theorem read_writeAll (m : Words) (start count : Nat) (source : Nat → Word) (j : Nat) :
    (m.writeAll start source count).read j =
      if start ≤ j ∧ j < start + count then source (j - start) else m.read j := by
  induction count with
  | zero =>
    rw [if_neg (by omega)]
    rfl
  | succ n ih =>
    have step : m.writeAll start source (n + 1) =
        (m.writeAll start source n).write (start + n) (source n) := by
      simp [writeAll, List.range_succ]
    rw [step, read_write, ih]
    by_cases h : start + n = j
    · subst h; simp
    · have : (start ≤ j ∧ j < start + (n + 1)) ↔ (start ≤ j ∧ j < start + n) := by omega
      simp [h, this]

/-- Byte `i`, counted from the first byte of the first word, lowest byte first. -/
def byteAt (m : Words) (i : Nat) : UInt8 :=
  UInt8.ofNat ((m.read (i / wordBytes)).toNat >>> (8 * (i % wordBytes)))

/-- The word made of bytes, lowest first. -/
def ofBytes (bytes : List UInt8) : Nat := bytes.foldr (fun b n => b.toNat + 256 * n) 0

end Words

end SnapshotArchive
