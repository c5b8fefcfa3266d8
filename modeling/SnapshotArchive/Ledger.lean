import SnapshotArchive.Failure

/-!
Pointer ledgers: growable bit vectors that say which words of some memory hold a pointer. Bit `i`
stands for the word at offset `i` from wherever that memory starts, so a ledger stays right when the
memory moves.

Bits are packed into 64-bit words. `Ledger.has` is the view through which every operation is
described: a bit at or past the length is never set.
-/

namespace SnapshotArchive

namespace Ledger

/-- Bit `i` of a packed vector; bits past its end are clear. -/
def bitAt (words : Array (BitVec 64)) (i : Nat) : Bool :=
  (words[i / 64]?.getD 0).getLsbD (i % 64)

/-- The `k` lowest bits. -/
def lowOnes (k : Nat) : BitVec 64 := BitVec.ofNat 64 (1 <<< min k 64 - 1)

theorem getLsbD_lowOnes (k i : Nat) : (lowOnes k).getLsbD i = decide (i < k ∧ i < 64) := by
  unfold lowOnes
  rw [BitVec.getLsbD_ofNat, Nat.one_shiftLeft, Nat.testBit_two_pow_sub_one, Bool.eq_iff_iff]
  simp only [Bool.and_eq_true, decide_eq_true_eq]
  omega

/-- Positions of the set bits of a word, ascending. -/
def bitsOf (w : BitVec 64) : List Nat :=
  if w = 0 then [] else (List.range 64).filter w.getLsbD

theorem mem_bitsOf {w : BitVec 64} {i : Nat} : i ∈ bitsOf w ↔ w.getLsbD i = true := by
  unfold bitsOf
  split
  · rename_i h; simp [h]
  · simp only [List.mem_filter, List.mem_range, and_iff_right_iff_imp]
    exact BitVec.lt_of_getLsbD

end Ledger

open Ledger in
/-- A bit vector of `len` bits. -/
structure Ledger where
  words : Array (BitVec 64)
  len : Nat
  size_words : words.size = ceilDiv len 64
  clear_past : ∀ i, len ≤ i → bitAt words i = false
  deriving DecidableEq

namespace Ledger

/-- Whether bit `i` is set. -/
def has (l : Ledger) (i : Nat) : Bool := bitAt l.words i

theorem has_eq_false {l : Ledger} {i : Nat} (h : l.len ≤ i) : l.has i = false := l.clear_past i h

theorem lt_len_of_has {l : Ledger} {i : Nat} (h : l.has i = true) : i < l.len := by
  rcases Nat.lt_or_ge i l.len with h' | h'
  · exact h'
  · rw [has_eq_false h'] at h; cases h

/-- Keeps the words of the bits below `len`, with the bits from `len` on cleared. -/
def cut (words : Array (BitVec 64)) (len : Nat) : Array (BitVec 64) :=
  Array.ofFn fun w : Fin (ceilDiv len 64) => words[w.val]?.getD 0 &&& lowOnes (len - 64 * w.val)

theorem bitAt_cut (words : Array (BitVec 64)) (len i : Nat) :
    bitAt (cut words len) i = (bitAt words i && decide (i < len)) := by
  unfold bitAt cut
  rw [Array.getElem?_ofFn]
  split
  · rename_i h
    simp only [Option.getD_some, BitVec.getLsbD_and, getLsbD_lowOnes]
    have : (i % 64 < len - 64 * (i / 64) ∧ i % 64 < 64) ↔ i < len := by omega
    simp [this]
  · rename_i h
    have : ¬ i < len := by unfold ceilDiv at h; omega
    simp [this]

/-- Changes the length to `len`: new bits are clear, bits from `len` on are dropped. -/
def resize (l : Ledger) (len : Nat) : Ledger where
  words := cut l.words len
  len := len
  size_words := by simp [cut]
  clear_past i h := by rw [bitAt_cut]; simp [Nat.not_lt.2 h]

theorem has_resize (l : Ledger) (n i : Nat) : (l.resize n).has i = (l.has i && decide (i < n)) :=
  bitAt_cut ..

/-- The ledger without bits. -/
def empty : Ledger where
  words := #[]
  len := 0
  size_words := rfl
  clear_past i _ := by simp [bitAt]

/-- A ledger of `len` clear bits. -/
def ofLength (len : Nat) : Ledger := empty.resize len

@[simp] theorem has_empty (i : Nat) : empty.has i = false := empty.clear_past i (Nat.zero_le i)

@[simp] theorem has_ofLength (n i : Nat) : (ofLength n).has i = false := by
  simp [ofLength, has_resize]

/-- Whether the ledger has no bits. -/
def isEmpty (l : Ledger) : Bool := l.len == 0

/-- Makes bit `i` addressable; a ledger that has to grow gets twice the room asked for. -/
def reserve (l : Ledger) (i : Nat) : Ledger := if l.len ≤ i then l.resize ((i + 1) * 2) else l

theorem has_reserve (l : Ledger) (n i : Nat) : (l.reserve n).has i = l.has i := by
  unfold reserve
  split
  · rw [has_resize]
    by_cases h : i < l.len
    · have : i < (n + 1) * 2 := by omega
      simp [this]
    · simp [has_eq_false (Nat.not_lt.1 h)]
  · rfl

theorem lt_len_reserve (l : Ledger) (i : Nat) : i < (l.reserve i).len := by
  unfold reserve
  split
  · change i < (i + 1) * 2; omega
  · omega

theorem bitAt_modify (words : Array (BitVec 64)) (f : BitVec 64 → BitVec 64) (i j : Nat)
    (h : i / 64 < words.size) :
    bitAt (words.modify (i / 64) f) j =
      if i / 64 = j / 64 then (f words[i / 64]).getLsbD (j % 64) else bitAt words j := by
  unfold bitAt
  rw [Array.getElem?_modify]
  split
  · rename_i e; rw [← e]; simp [h]
  · rfl

theorem word_lt_size (l : Ledger) {i : Nat} (h : i < l.len) : i / 64 < l.words.size := by
  rw [l.size_words]; unfold ceilDiv; omega

theorem same_bit {i j : Nat} (h : i / 64 = j / 64) : i % 64 = j % 64 ↔ i = j := by omega

theorem bitAt_insert (l : Ledger) {i : Nat} (h : i < l.len) (j : Nat) :
    bitAt (l.words.modify (i / 64) (· ||| BitVec.twoPow 64 (i % 64))) j =
      (l.has j || decide (j = i)) := by
  have hs := l.word_lt_size h
  rw [bitAt_modify _ _ _ _ hs]
  by_cases e : i / 64 = j / 64
  · rw [if_pos e, BitVec.getLsbD_or, BitVec.getLsbD_twoPow]
    have hj : j % 64 < 64 := by omega
    have hi : i % 64 < 64 := by omega
    have : l.has j = l.words[i / 64].getLsbD (j % 64) := by
      unfold has bitAt; rw [← e]; simp [hs]
    rw [this]
    by_cases hij : i = j <;> simp [hij, same_bit e, hj, eq_comm]
  · have : j ≠ i := by rintro rfl; exact e rfl
    simp [e, this, has]

theorem bitAt_erase (l : Ledger) {i : Nat} (h : i < l.len) (j : Nat) :
    bitAt (l.words.modify (i / 64) (· &&& ~~~ BitVec.twoPow 64 (i % 64))) j =
      (l.has j && decide (j ≠ i)) := by
  have hs := l.word_lt_size h
  rw [bitAt_modify _ _ _ _ hs]
  by_cases e : i / 64 = j / 64
  · rw [if_pos e, BitVec.getLsbD_and, BitVec.getLsbD_not, BitVec.getLsbD_twoPow]
    have hj : j % 64 < 64 := by omega
    have : l.has j = l.words[i / 64].getLsbD (j % 64) := by
      unfold has bitAt; rw [← e]; simp [hs]
    rw [this]
    by_cases hij : i = j
    · subst hij; simp [hj]
    · have : ¬ i % 64 = j % 64 := fun h => hij ((same_bit e).1 h)
      simp [this, hj, Ne.symm hij]
  · have : j ≠ i := by rintro rfl; exact e rfl
    simp [e, this, has]

/-- Sets bit `i`; a bit past the end stays clear. -/
def insert (l : Ledger) (i : Nat) : Ledger :=
  if h : i < l.len then
    { l with
      words := l.words.modify (i / 64) (· ||| BitVec.twoPow 64 (i % 64))
      size_words := by rw [Array.size_modify, l.size_words]
      clear_past := fun j hj => by
        have : j ≠ i := by omega
        rw [bitAt_insert l h, has_eq_false hj]; simp [this] }
  else l

/-- Clears bit `i`. -/
def erase (l : Ledger) (i : Nat) : Ledger :=
  if h : i < l.len then
    { l with
      words := l.words.modify (i / 64) (· &&& ~~~ BitVec.twoPow 64 (i % 64))
      size_words := by rw [Array.size_modify, l.size_words]
      clear_past := fun j hj => by rw [bitAt_erase l h, has_eq_false hj]; simp }
  else l

@[simp] theorem len_insert (l : Ledger) (i : Nat) : (l.insert i).len = l.len := by
  unfold insert; split <;> rfl

@[simp] theorem len_erase (l : Ledger) (i : Nat) : (l.erase i).len = l.len := by
  unfold erase; split <;> rfl

theorem has_insert (l : Ledger) {i : Nat} (h : i < l.len) (j : Nat) :
    (l.insert i).has j = (l.has j || decide (j = i)) := by
  unfold insert
  rw [dif_pos h]
  exact bitAt_insert l h j

theorem has_erase (l : Ledger) (i j : Nat) :
    (l.erase i).has j = (l.has j && decide (j ≠ i)) := by
  unfold erase
  split
  · rename_i h; exact bitAt_erase l h j
  · rename_i h
    by_cases e : j = i
    · subst e; simp [has_eq_false (Nat.not_lt.1 h)]
    · simp [e]

/-- Bit `i`, which must exist. -/
def get? (l : Ledger) (i : Nat) : Except Fault Bool :=
  if i < l.len then .ok (l.has i) else .error (.ledgerIndex i)

/-- Sets bit `i`, which must exist. -/
def set? (l : Ledger) (i : Nat) : Except Fault Ledger :=
  if i < l.len then .ok (l.insert i) else .error (.ledgerIndex i)

/-- Clears bit `i`, which must exist. -/
def clear? (l : Ledger) (i : Nat) : Except Fault Ledger :=
  if i < l.len then .ok (l.erase i) else .error (.ledgerIndex i)

/-- The number of set bits. -/
def countOnes (l : Ledger) : Nat :=
  l.words.foldl (fun total w => total + (bitsOf w).length) 0

/-- The highest set bit: the highest bit of the last word that is not zero. -/
def lastOne? (l : Ledger) : Option Nat :=
  (l.words.toList.zipIdx.reverse.find? (·.1 ≠ 0)).map fun (w, i) => 64 * i + w.toNat.log2

/-- The set bits of word `w`, ascending. -/
def wordOnes (l : Ledger) (w : Nat) : List Nat := (bitsOf (l.words[w]?.getD 0)).map (64 * w + ·)

/-- The set bits from `start` up to, but without, `stop`, ascending. -/
def onesIn (l : Ledger) (start stop : Nat) : List Nat :=
  let stop := min stop l.len
  let first := start / 64
  ((List.range' first (ceilDiv stop 64 - first)).flatMap l.wordOnes).filter
    fun i => start ≤ i && i < stop

/-- The set bits, ascending. -/
def ones (l : Ledger) : List Nat := l.onesIn 0 l.len

theorem mem_wordOnes {l : Ledger} {w i : Nat} :
    i ∈ l.wordOnes w ↔ i / 64 = w ∧ l.has i = true := by
  simp only [wordOnes, List.mem_map, mem_bitsOf]
  constructor
  · rintro ⟨b, hb, rfl⟩
    have := BitVec.lt_of_getLsbD hb
    have hd : (64 * w + b) / 64 = w := by omega
    have hm : (64 * w + b) % 64 = b := by omega
    exact ⟨hd, by unfold has bitAt; rw [hd, hm]; exact hb⟩
  · rintro ⟨rfl, h⟩
    exact ⟨i % 64, h, by omega⟩

theorem mem_onesIn {l : Ledger} {start stop i : Nat} :
    i ∈ l.onesIn start stop ↔ start ≤ i ∧ i < stop ∧ l.has i = true := by
  simp only [onesIn, List.mem_filter, List.mem_flatMap, List.mem_range'_1, mem_wordOnes,
    Bool.and_eq_true, decide_eq_true_eq]
  constructor
  · rintro ⟨⟨_, _, rfl, h⟩, h1, h2⟩
    exact ⟨h1, by omega, h⟩
  · rintro ⟨h1, h2, h⟩
    have := lt_len_of_has h
    exact ⟨⟨i / 64, by unfold ceilDiv; omega, rfl, h⟩, h1, by omega⟩

theorem mem_ones {l : Ledger} {i : Nat} : i ∈ l.ones ↔ l.has i = true := by
  rw [ones, mem_onesIn]
  exact ⟨fun h => h.2.2, fun h => ⟨Nat.zero_le i, lt_len_of_has h, h⟩⟩

/-- Asks `keep` about the given bits in turn and clears those it turns down; the first error ends
    the walk and leaves the bits from there on alone. -/
def retainAmong {m : Type → Type} [Monad m] {ε : Type} (keep : Nat → m (Except ε Bool)) :
    List Nat → Ledger → m (Except ε Unit × Ledger)
  | [], l => pure (.ok (), l)
  | i :: rest, l => do
    match ← keep i with
    | .error e => pure (.error e, l)
    | .ok true => retainAmong keep rest l
    | .ok false => retainAmong keep rest (l.erase i)

/-- Asks `keep` about every set bit, ascending, and clears those it turns down. -/
def retain {m : Type → Type} [Monad m] {ε : Type} (keep : Nat → m (Except ε Bool)) (l : Ledger) :
    m (Except ε Unit × Ledger) :=
  retainAmong keep l.ones l

/-- Drops the bits past `last?`; without a last bit the ledger becomes empty. -/
def compact (l : Ledger) (last? : Option Nat) : Ledger :=
  l.resize (match last? with | none => 0 | some i => i + 1)

/-- The stored form: bit `i` is bit `i % 8` of byte `i / 8`. -/
def bytes (l : Ledger) : List UInt8 :=
  (List.range (ceilDiv l.len 8)).map fun k =>
    UInt8.ofNat ((l.words[k / 8]?.getD 0).toNat >>> (8 * (k % 8)))

end Ledger

end SnapshotArchive
