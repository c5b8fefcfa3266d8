import Mathlib.Algebra.Order.Group.Nat
import Mathlib.Order.Bounds.Basic
import Mathlib.Tactic.Common
import SnapshotArchive.Address.Basic
import SnapshotArchive.Settings.Basic

/-!
Rounding by masks agrees with rounding by division. Clearing the low bits of a word below a power of
two is dividing by it and multiplying again, so a rounded value is the least multiple that is not
smaller, and rounding goes along with the addition of a multiple. The sum before the mask leaves the
address space exactly where the least multiple does, because the limit is a multiple itself; so rounding
is exact on all words, up to the last multiple.
-/

namespace SnapshotArchive

/-- The mask test accepts exactly the powers of two, `n = 2 ^ k`. -/
theorem isPowerOfTwo_iff {n : Nat} : isPowerOfTwo n = true ↔ ∃ k, n = 2 ^ k := by
  have := @Nat.ne_zero_and_sub_one_eq_zero_iff_isPowerOfTwo n
  rw [Nat.isPowerOfTwo] at this
  simpa [isPowerOfTwo] using this

/-- The mask test accepts exactly the multiples `v` of `2 ^ k`. -/
theorem isAligned_iff {v k : Nat} : isAligned v (2 ^ k) = true ↔ 2 ^ k ∣ v := by
  rw [isAligned, Nat.and_two_pow_sub_one_eq_mod, beq_iff_eq, Nat.dvd_iff_mod_eq_zero]

theorem isAligned_word {v : Nat} : isAligned v wordBytes = true ↔ 8 ∣ v := isAligned_iff (k := 3)

/-- Clearing the low `k` bits of a word rounds down. -/
theorem and_mask {n k : Nat} (hn : n < addressLimit) (hk : k ≤ 64) :
    n &&& (addressLimit - 2 ^ k) = n / 2 ^ k * 2 ^ k := by
  have hlow : 2 ^ k - 1 < 2 ^ 64 :=
    Nat.lt_of_lt_of_le (Nat.sub_lt (Nat.two_pow_pos k) Nat.one_pos)
      (Nat.pow_le_pow_right (by decide) hk)
  have hmask : addressLimit - 2 ^ k = 2 ^ 64 - ((2 ^ k - 1) + 1) := by
    rw [Nat.sub_add_cancel (Nat.two_pow_pos k)]; rfl
  apply Nat.eq_of_testBit_eq
  intro i
  rw [Nat.testBit_and, hmask, Nat.testBit_two_pow_sub_succ hlow, Nat.testBit_two_pow_sub_one,
    Nat.testBit_mul_two_pow, Nat.testBit_div_two_pow]
  by_cases hki : k ≤ i
  · by_cases hi : i < 64
    · simp [hki, hi, Nat.not_lt.2 hki]
    · have hpow : 2 ^ 64 ≤ 2 ^ i := Nat.pow_le_pow_right (by decide) (by omega)
      have hbig : n.testBit i = false := Nat.testBit_lt_two_pow (Nat.lt_of_lt_of_le hn hpow)
      simp [hki, hi, hbig]
  · simp [hki, Nat.not_le.1 hki]

/-- The least multiple of `align` that is not below `n`. -/
def roundUp (n align : Nat) : Nat := ceilDiv n align * align

theorem roundUp_two_pow (n k : Nat) : roundUp n (2 ^ k) = (n + (2 ^ k - 1)) / 2 ^ k * 2 ^ k := by
  rw [roundUp, ceilDiv, Nat.add_sub_assoc (Nat.one_le_two_pow)]

theorem roundUp_bounds (n k : Nat) : n ≤ roundUp n (2 ^ k) ∧ roundUp n (2 ^ k) < n + 2 ^ k := by
  have hdm := Nat.div_add_mod (n + (2 ^ k - 1)) (2 ^ k)
  have hlt := Nat.mod_lt (n + (2 ^ k - 1)) (Nat.two_pow_pos k)
  rw [Nat.mul_comm, ← roundUp_two_pow] at hdm
  omega

theorem le_roundUp (n k : Nat) : n ≤ roundUp n (2 ^ k) := (roundUp_bounds n k).1

/-- The least multiple of `2 ^ k` is not below `n`, and no multiple in between is. -/
theorem isLeast_roundUp (n k : Nat) : IsLeast {t | n ≤ t ∧ 2 ^ k ∣ t} (roundUp n (2 ^ k)) := by
  refine ⟨⟨le_roundUp n k, Nat.dvd_mul_left ..⟩, ?_⟩
  rintro t ⟨hle, m, rfl⟩
  have hpos := Nat.two_pow_pos k
  rw [roundUp_two_pow, Nat.mul_comm]
  refine Nat.mul_le_mul_left _ (Nat.le_of_lt_succ ?_)
  rw [Nat.div_lt_iff_lt_mul hpos, Nat.succ_mul, Nat.mul_comm m]
  omega

/-- A multiple `n` of `2 ^ k` is the least that is not below itself. -/
theorem isLeast_of_dvd {n k : Nat} (h : 2 ^ k ∣ n) : IsLeast {t | n ≤ t ∧ 2 ^ k ∣ t} n :=
  ⟨⟨Nat.le_refl n, h⟩, fun _ ht => ht.1⟩

theorem roundUp_of_dvd {n k : Nat} (h : 2 ^ k ∣ n) : roundUp n (2 ^ k) = n :=
  (isLeast_roundUp n k).unique (isLeast_of_dvd h)

/-- Rounding goes along with the addition of a multiple `b`. -/
theorem roundUp_add {b k : Nat} (hb : 2 ^ k ∣ b) (n : Nat) :
    roundUp (b + n) (2 ^ k) = b + roundUp n (2 ^ k) := by
  obtain ⟨c, rfl⟩ := hb
  rw [roundUp_two_pow, roundUp_two_pow, Nat.add_assoc, Nat.add_comm,
    Nat.add_mul_div_left _ _ (Nat.two_pow_pos k), Nat.add_mul, Nat.mul_comm c, Nat.add_comm]

/-- Whole words stay whole words, also where `2 ^ k` is smaller. -/
theorem word_dvd_roundUp {n : Nat} (h : 8 ∣ n) (k : Nat) : 8 ∣ roundUp n (2 ^ k) := by
  rcases Nat.le_total k 3 with hk | hk
  · rw [roundUp_of_dvd (Nat.dvd_trans (Nat.pow_dvd_pow 2 hk) h)]
    exact h
  · exact Nat.dvd_trans (Nat.pow_dvd_pow 2 hk) (isLeast_roundUp n k).1.2

/-- Rounding fails where the sum `v + (align - 1)` leaves the address space. -/
theorem alignUp?_eq_none {v align : Nat} :
    alignUp? v align = none ↔ addressLimit ≤ v + (align - 1) := by
  unfold alignUp?
  dsimp only
  split
  · rename_i h
    exact ⟨nofun, fun hle => absurd h (Nat.not_lt.2 hle)⟩
  · rename_i h
    exact ⟨fun _ => Nat.not_lt.1 h, fun _ => rfl⟩

/-- What rounding `v` up answers, by division. -/
theorem alignUp?_eq_some {v k r : Nat} :
    alignUp? v (2 ^ k) = some r ↔ v + (2 ^ k - 1) < addressLimit ∧ r = roundUp v (2 ^ k) := by
  unfold alignUp?
  dsimp only
  split
  · rename_i h
    have hk : k ≤ 64 := by
      by_contra hk
      have : 2 ^ 65 ≤ 2 ^ k := Nat.pow_le_pow_right (by decide) (by omega)
      unfold addressLimit at h; omega
    rw [and_mask h hk, ← roundUp_two_pow, Option.some_inj]
    exact ⟨fun e => ⟨h, e.symm⟩, fun e => e.2.symm⟩
  · rename_i h
    exact ⟨nofun, fun e => absurd e.1 h⟩

/-- A rounded value `r` is a multiple, and the least one that is not below `v`. -/
theorem alignUp?_bounds {v k r : Nat} (h : alignUp? v (2 ^ k) = some r) :
    v ≤ r ∧ r < v + 2 ^ k ∧ 2 ^ k ∣ r := by
  obtain ⟨-, rfl⟩ := alignUp?_eq_some.1 h
  obtain ⟨hle, hlt⟩ := roundUp_bounds v k
  exact ⟨hle, hlt, Nat.dvd_mul_left ..⟩

/-- A rounded value `r` is a word. -/
theorem alignUp?_lt {v k r : Nat} (h : alignUp? v (2 ^ k) = some r) : r < addressLimit := by
  obtain ⟨hlt, rfl⟩ := alignUp?_eq_some.1 h
  rw [roundUp_two_pow]
  exact Nat.lt_of_le_of_lt (Nat.div_mul_le_self ..) hlt

/-- A multiple `v` of `2 ^ k` stays as it is where it can be rounded. -/
theorem alignUp?_of_dvd {v k r : Nat} (hv : 2 ^ k ∣ v) (h : alignUp? v (2 ^ k) = some r) : r = v := by
  obtain ⟨-, rfl⟩ := alignUp?_eq_some.1 h
  exact roundUp_of_dvd hv

/-- Rounding up fails exactly where `roundUp n (2 ^ k)` is no byte count. -/
theorem alignUp?_eq_roundUp (n : Nat) {k : Nat} (hk : k ≤ 64) :
    alignUp? n (2 ^ k) = if roundUp n (2 ^ k) < addressLimit then some (roundUp n (2 ^ k)) else none := by
  -- the limit is a multiple too, so no sum below it rounds to it
  have hlimit : addressLimit = 2 ^ (64 - k) * 2 ^ k := by
    rw [← Nat.pow_add, Nat.sub_add_cancel hk]
    rfl
  have hlt : n + (2 ^ k - 1) < addressLimit ↔ roundUp n (2 ^ k) < addressLimit := by
    rw [roundUp_two_pow, hlimit, Nat.mul_lt_mul_right (Nat.two_pow_pos k),
      Nat.div_lt_iff_lt_mul (Nat.two_pow_pos k)]
  split
  · rename_i h
    exact alignUp?_eq_some.2 ⟨hlt.2 h, rfl⟩
  · rename_i h
    exact alignUp?_eq_none.2 (Nat.not_lt.1 fun hsum => h (hlt.1 hsum))

/-- Sizes `n` that are counted in whole words. -/
theorem alignUp?_words (n : Nat) :
    alignUp? n wordBytes =
      if roundUp n wordBytes < addressLimit then some (roundUp n wordBytes) else none :=
  alignUp?_eq_roundUp n (k := 3) (by decide)

/-- What is answered is the least multiple `r`, and every least multiple that is a byte count is. -/
theorem alignUp?_eq_some_iff_isLeast {n k r : Nat} (hk : k ≤ 64) :
    alignUp? n (2 ^ k) = some r ↔ IsLeast {t | n ≤ t ∧ 2 ^ k ∣ t} r ∧ r < addressLimit := by
  rw [alignUp?_eq_roundUp n hk]
  constructor
  · intro h
    split at h
    · cases h
      exact ⟨isLeast_roundUp n k, by assumption⟩
    · cases h
  · rintro ⟨hleast, hlt⟩
    obtain rfl := (isLeast_roundUp n k).unique hleast
    exact if_pos hlt

/-- What is answered for a larger value `m` is no smaller, and a smaller value `n` is answered,
    too. -/
theorem alignUp?_mono {n m k s : Nat} (hk : k ≤ 64) (hnm : n ≤ m) (h : alignUp? m (2 ^ k) = some s) :
    ∃ r, alignUp? n (2 ^ k) = some r ∧ r ≤ s := by
  obtain ⟨⟨⟨hle, hdvd⟩, -⟩, hlt⟩ := (alignUp?_eq_some_iff_isLeast hk).1 h
  have hrs : roundUp n (2 ^ k) ≤ s := (isLeast_roundUp n k).2 ⟨Nat.le_trans hnm hle, hdvd⟩
  exact ⟨roundUp n (2 ^ k), (alignUp?_eq_some_iff_isLeast hk).2
    ⟨isLeast_roundUp n k, Nat.lt_of_le_of_lt hrs hlt⟩, hrs⟩

/-- A rounded value `r` is rounded to itself. -/
theorem alignUp?_idem {n k r : Nat} (hk : k ≤ 64) (h : alignUp? n (2 ^ k) = some r) :
    alignUp? r (2 ^ k) = some r :=
  (alignUp?_eq_some_iff_isLeast hk).2 ⟨isLeast_of_dvd (alignUp?_bounds h).2.2, alignUp?_lt h⟩

/-- Rounding leaves a byte count `n` as it is exactly if that is a multiple. -/
theorem alignUp?_eq_self_iff {n k : Nat} (hk : k ≤ 64) (hn : n < addressLimit) :
    alignUp? n (2 ^ k) = some n ↔ 2 ^ k ∣ n :=
  ⟨fun h => (alignUp?_bounds h).2.2,
    fun h => (alignUp?_eq_some_iff_isLeast hk).2 ⟨isLeast_of_dvd h, hn⟩⟩

section Words

variable {a : Word}

/-- A power of two `a` that is a word has its bit in the word. -/
theorem Word.exists_pow (ha : a.toNat.isPowerOfTwo) : ∃ k, k < 64 ∧ a.toNat = 2 ^ k := by
  obtain ⟨k, hk⟩ := ha
  refine ⟨k, (Nat.pow_lt_pow_iff_right Nat.one_lt_two).1 ?_, hk⟩
  rw [← hk]
  exact a.toNat_lt

theorem Word.toNat_pred (ha : 0 < a.toNat) : (a - 1).toNat = a.toNat - 1 :=
  UInt64.toNat_sub_of_le _ _ (UInt64.le_iff_toNat_le.2 ha)

/-- The sum `v + (a - 1)` goes around the end of the address space exactly where it has no word. -/
theorem Word.le_add_pred_iff (v : Word) (ha : 0 < a.toNat) :
    v ≤ v + (a - 1) ↔ v.toNat + (a.toNat - 1) < addressLimit := by
  have hv : v.toNat < addressLimit := v.toNat_lt
  have hlimit : a.toNat < addressLimit := a.toNat_lt
  have hsum : (v + (a - 1)).toNat = (v.toNat + (a.toNat - 1)) % addressLimit := by
    rw [UInt64.toNat_add, Word.toNat_pred ha]
    rfl
  rw [UInt64.le_iff_toNat_le, hsum]
  unfold addressLimit at *
  omega

/-- Rounding up on words: the sum `v + (a - 1)`, unless it goes around, without its low bits. -/
theorem alignUp?_toNat (v : Word) (ha : 0 < a.toNat) :
    alignUp? v.toNat a.toNat =
      if v ≤ v + (a - 1) then some ((v + (a - 1)) &&& ~~~(a - 1)).toNat else none := by
  have hmask : (~~~(a - 1)).toNat = addressLimit - a.toNat := by
    rw [UInt64.toNat_not, Word.toNat_pred ha, Nat.sub_sub, Nat.add_sub_cancel' ha]
    rfl
  unfold alignUp?
  dsimp only
  by_cases h : v.toNat + (a.toNat - 1) < addressLimit
  · have hsum : (v + (a - 1)).toNat = v.toNat + (a.toNat - 1) := by
      rw [UInt64.toNat_add, Word.toNat_pred ha]
      exact Nat.mod_eq_of_lt h
    rw [if_pos h, if_pos ((Word.le_add_pred_iff v ha).2 h), UInt64.toNat_and, hsum, hmask]
  · rw [if_neg h, if_neg (h ∘ (Word.le_add_pred_iff v ha).1)]

/-- The test for multiples on words: the low bits `v &&& (a - 1)` are zero. -/
theorem isAligned_toNat (v : Word) (ha : 0 < a.toNat) :
    isAligned v.toNat a.toNat = (v &&& (a - 1) == 0) := by
  rw [isAligned, ← Word.toNat_pred ha, ← UInt64.toNat_and, Bool.eq_iff_iff, beq_iff_eq, beq_iff_eq,
    ← UInt64.toNat_inj]
  rfl

/-- Rounding a word `v` up to a power of two `a`, by a sum that may go around the end of the address
    space and a mask, is exact: the answer is the least multiple that is not below, wherever that is
    a word, and no answer elsewhere; the mask test accepts the multiples. So rounding is monotone,
    rounds what it answers to itself, and leaves exactly the multiples as they are. -/
theorem rounding_exact (ha : a.toNat.isPowerOfTwo) (v : Word) :
    (alignUp? v.toNat a.toNat =
      if v ≤ v + (a - 1) then some ((v + (a - 1)) &&& ~~~(a - 1)).toNat else none) ∧
    (∃ r, IsLeast {t | v.toNat ≤ t ∧ a.toNat ∣ t} r ∧
      alignUp? v.toNat a.toNat = if r < addressLimit then some r else none) ∧
    isAligned v.toNat a.toNat = (v &&& (a - 1) == 0) ∧
    (isAligned v.toNat a.toNat = true ↔ a.toNat ∣ v.toNat) ∧
    (∀ w s, v ≤ w → alignUp? w.toNat a.toNat = some s → ∃ r, alignUp? v.toNat a.toNat = some r ∧ r ≤ s) ∧
    (∀ r, alignUp? v.toNat a.toNat = some r → alignUp? r a.toNat = some r) ∧
    (alignUp? v.toNat a.toNat = some v.toNat ↔ a.toNat ∣ v.toNat) := by
  obtain ⟨k, hlt, hk⟩ := Word.exists_pow ha
  have hpos : 0 < a.toNat := hk ▸ Nat.two_pow_pos k
  have hle : k ≤ 64 := Nat.le_of_lt hlt
  refine ⟨alignUp?_toNat v hpos, ?_, isAligned_toNat v hpos, ?_⟩
  · rw [hk]
    exact ⟨roundUp v.toNat (2 ^ k), isLeast_roundUp v.toNat k, alignUp?_eq_roundUp v.toNat hle⟩
  · rw [hk]
    exact ⟨isAligned_iff, fun w s hvw h => alignUp?_mono hle (UInt64.le_iff_toNat_le.1 hvw) h,
      fun r h => alignUp?_idem hle h, alignUp?_eq_self_iff hle v.toNat_lt⟩

/-- The last multiple of 64 KiB is rounded to itself, and one byte on there is no answer. -/
theorem rounding_exact_last :
    (0x10000 : Word).toNat.isPowerOfTwo ∧
      alignUp? (0xffffffffffff0000 : Word).toNat (0x10000 : Word).toNat = some 0xffffffffffff0000 ∧
      alignUp? (0xffffffffffff0001 : Word).toNat (0x10000 : Word).toNat = none := by
  have hpow : (0x10000 : Word).toNat.isPowerOfTwo := ⟨16, rfl⟩
  obtain ⟨-, -, -, -, -, -, hself⟩ := rounding_exact hpow 0xffffffffffff0000
  obtain ⟨hmask, -⟩ := rounding_exact hpow 0xffffffffffff0001
  exact ⟨hpow, hself.2 ⟨0xffffffffffff, rfl⟩, hmask.trans (if_neg (by decide))⟩

end Words

namespace Settings

/-- Usable settings align to a power of two `2 ^ k` of at least a word, and the base address to
    it. -/
theorem validate_eq_ok {s : Settings} (h : s.validate = .ok ()) :
    ∃ k, s.regionAlignment = 2 ^ k ∧ 3 ≤ k ∧ 2 ^ k ∣ s.requestedBase.toNat := by
  unfold validate at h
  split at h
  · cases h
  · rename_i hpow
    split at h
    · cases h
    · rename_i hbase
      simp only [Bool.or_eq_true, Bool.not_eq_true', decide_eq_true_eq, not_or, Bool.not_eq_false,
        Nat.not_lt] at hpow
      obtain ⟨k, hk⟩ := isPowerOfTwo_iff.1 hpow.1
      simp only [Bool.not_eq_true', Bool.not_eq_false] at hbase
      rw [hk] at hbase hpow
      refine ⟨k, hk, ?_, isAligned_iff.1 hbase⟩
      by_contra hlt
      have : 2 ^ k < 2 ^ 3 := Nat.pow_lt_pow_right (by decide) (by omega)
      have : wordBytes = 8 := rfl
      omega

end Settings

end SnapshotArchive
