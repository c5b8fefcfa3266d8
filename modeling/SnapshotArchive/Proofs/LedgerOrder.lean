import Mathlib.Tactic.Common
import SnapshotArchive.Ledger

/-!
The order of the bits of a ledger. Set bits are listed ascending and once each, the last one is the
greatest, and a ledger is told apart by its length and its set bits alone.
-/

namespace SnapshotArchive

namespace Ledger

theorem pairwise_bitsOf (w : BitVec 64) : (bitsOf w).Pairwise (· < ·) := by
  unfold bitsOf
  split
  · exact List.Pairwise.nil
  · exact List.pairwise_lt_range.filter _

theorem pairwise_wordOnes (l : Ledger) (w : Nat) : (l.wordOnes w).Pairwise (· < ·) := by
  refine List.pairwise_map.2 ((pairwise_bitsOf _).imp ?_)
  intro a b hab
  omega

/-- The set bits of `l` from `start` up to `stop` are listed in ascending order. -/
theorem pairwise_onesIn (l : Ledger) (start stop : Nat) :
    (l.onesIn start stop).Pairwise (· < ·) := by
  refine List.Pairwise.filter _ (List.pairwise_flatMap.2 ⟨fun w _ => l.pairwise_wordOnes w, ?_⟩)
  refine List.Pairwise.imp ?_ (List.pairwise_lt_range' 1)
  intro v w hvw i hi j hj
  obtain ⟨rfl, -⟩ := mem_wordOnes.1 hi
  obtain ⟨rfl, -⟩ := mem_wordOnes.1 hj
  omega

theorem pairwise_ones (l : Ledger) : l.ones.Pairwise (· < ·) := l.pairwise_onesIn 0 l.len

/-- The set bits are those of the words, one word after the other. -/
theorem ones_eq_flatMap (l : Ledger) : l.ones = (List.range l.words.size).flatMap l.wordOnes := by
  have hkeep : ∀ i ∈ (List.range l.words.size).flatMap l.wordOnes,
      (decide (0 ≤ i) && decide (i < min l.len l.len)) = true := by
    intro i hi
    obtain ⟨w, -, hw⟩ := List.mem_flatMap.1 hi
    have := lt_len_of_has (mem_wordOnes.1 hw).2
    simpa using this
  have hrange : List.range' (0 / 64) (ceilDiv (min l.len l.len) 64 - 0 / 64) =
      List.range l.words.size := by
    rw [Nat.min_self, Nat.zero_div, Nat.sub_zero, ← l.size_words, List.range_eq_range']
  unfold ones onesIn
  dsimp only
  rw [hrange, List.filter_eq_self.2 hkeep]

/-- A word `w` with a set bit `b` is not zero, and `b` is not above its highest bit. -/
theorem le_log2_of_getLsbD {w : BitVec 64} {b : Nat} (h : w.getLsbD b = true) :
    w ≠ 0 ∧ b ≤ w.toNat.log2 := by
  have hne : w ≠ 0 := by rintro rfl; simp at h
  have hpow : 2 ^ b ≤ w.toNat := Nat.ge_two_pow_of_testBit h
  exact ⟨hne, (Nat.le_log2 fun h0 => hne (BitVec.eq_of_toNat_eq h0)).2 hpow⟩

/-- A set bit `i` lies in a stored word that is not zero. -/
theorem word_of_has {l : Ledger} {i : Nat} (h : l.has i = true) :
    ∃ w, l.words[i / 64]? = some w ∧ w.getLsbD (i % 64) = true := by
  unfold has bitAt at h
  cases hw : l.words[i / 64]? with
  | none => rw [hw] at h; simp at h
  | some w => exact ⟨w, rfl, by rw [hw] at h; exact h⟩

theorem has_of_word {l : Ledger} {j b : Nat} {w : BitVec 64} (hw : l.words[j]? = some w)
    (hb : b < 64) (h : w.getLsbD b = true) : l.has (64 * j + b) = true := by
  have hd : (64 * j + b) / 64 = j := by omega
  have hm : (64 * j + b) % 64 = b := by omega
  unfold has bitAt
  rw [hd, hm, hw]
  exact h

/-- Words by index, the last one first. -/
def wordsDown (l : Ledger) : List (BitVec 64 × Nat) := l.words.toList.zipIdx.reverse

theorem mem_wordsDown {l : Ledger} {w : BitVec 64} {j : Nat} :
    (w, j) ∈ l.wordsDown ↔ l.words[j]? = some w := by
  simp [wordsDown, List.mem_zipIdx_iff_getElem?]

theorem pairwise_wordsDown (l : Ledger) : l.wordsDown.Pairwise (fun a b => b.2 < a.2) := by
  refine List.pairwise_reverse.2 ?_
  have h : (l.words.toList.zipIdx.map Prod.snd).Pairwise (· < ·) := by
    rw [List.zipIdx_map_snd]
    exact List.pairwise_lt_range'
  exact List.pairwise_map.1 h

theorem lastOne?_eq (l : Ledger) :
    l.lastOne? = (l.wordsDown.find? (·.1 ≠ 0)).map fun (w, i) => 64 * i + w.toNat.log2 := rfl

/-- Without a last bit no bit `i` is set. -/
theorem lastOne?_eq_none {l : Ledger} (h : l.lastOne? = none) (i : Nat) : l.has i = false := by
  rw [lastOne?_eq, Option.map_eq_none_iff, List.find?_eq_none] at h
  by_contra hi
  obtain ⟨w, hw, hb⟩ := word_of_has (Bool.not_eq_false _ ▸ hi)
  have := h (w, i / 64) (mem_wordsDown.2 hw)
  exact absurd (le_log2_of_getLsbD hb).1 (by simpa using this)

/-- The last bit `m` is set, and no set bit is above it. -/
theorem lastOne?_eq_some {l : Ledger} {m : Nat} (h : l.lastOne? = some m) :
    l.has m = true ∧ ∀ i, l.has i = true → i ≤ m := by
  rw [lastOne?_eq] at h
  obtain ⟨⟨w, j⟩, hfind, rfl⟩ := Option.map_eq_some_iff.1 h
  obtain ⟨hw0, before, after, hsplit, hbefore⟩ := List.find?_eq_some_iff_append.1 hfind
  have hne : w ≠ 0 := by simpa using hw0
  have hstored : l.words[j]? = some w := mem_wordsDown.1 (by rw [hsplit]; simp)
  have hlog : w.toNat.log2 < 64 :=
    (Nat.log2_lt fun h0 => hne (BitVec.eq_of_toNat_eq h0)).2 w.isLt
  refine ⟨has_of_word hstored hlog (Nat.testBit_log2 fun h0 => hne (BitVec.eq_of_toNat_eq h0)), ?_⟩
  intro i hi
  obtain ⟨v, hv, hb⟩ := word_of_has hi
  obtain ⟨hv0, hle⟩ := le_log2_of_getLsbD hb
  have hmem : (v, i / 64) ∈ l.wordsDown := mem_wordsDown.2 hv
  have hdown := l.pairwise_wordsDown
  rw [hsplit] at hmem hdown
  rcases List.mem_append.1 hmem with hmem | hmem
  · exact absurd hv0 (by simpa using hbefore _ hmem)
  · rcases List.mem_cons.1 hmem with heq | hmem
    · cases heq; dsimp only; omega
    · have := (List.pairwise_cons.1 (List.pairwise_append.1 hdown).2.1).1 _ hmem
      dsimp only at this ⊢
      omega

/-- Ledgers `l` and `l'` are the same if their lengths and their set bits are. -/
theorem ext_has {l l' : Ledger} (hlen : l.len = l'.len) (h : ∀ i, l.has i = l'.has i) : l = l' := by
  have hsize : l.words.size = l'.words.size := by rw [l.size_words, l'.size_words, hlen]
  have hwords : l.words = l'.words := by
    refine Array.ext hsize fun j hj hj' => BitVec.eq_of_getLsbD_eq fun b hb => ?_
    have hd : (64 * j + b) / 64 = j := by omega
    have hm : (64 * j + b) % 64 = b := by omega
    have := h (64 * j + b)
    unfold has bitAt at this
    rw [hd, hm] at this
    simpa [hj, hj'] using this
  cases l
  cases l'
  congr

theorem has_compact_last (l : Ledger) (i : Nat) : (l.compact l.lastOne?).has i = l.has i := by
  unfold compact
  rw [has_resize]
  cases h : l.lastOne? with
  | none => simp [lastOne?_eq_none h i]
  | some m =>
    cases hi : l.has i with
    | false => rfl
    | true => simpa using Nat.lt_succ_of_le ((lastOne?_eq_some h).2 i hi)

/-- The bits `i :: rest` are asked about in turn, up to the first error. -/
theorem run_retainAmong_cons {σ ε : Type} {keep : Nat → StateM σ (Except ε Bool)} (i : Nat)
    (rest : List Nat) (l : Ledger) (s : σ) :
    (retainAmong keep (i :: rest) l).run s =
      match (keep i).run s with
      | (.error e, s') => ((.error e, l), s')
      | (.ok true, s') => (retainAmong keep rest l).run s'
      | (.ok false, s') => (retainAmong keep rest (l.erase i)).run s' := by
  rw [retainAmong, StateT.run_bind]
  change (match (keep i).run s with | (x, s') => _ : (Except ε Unit × Ledger) × σ) = _
  rcases (keep i).run s with ⟨_ | (_ | _), _⟩ <;> rfl

end Ledger

end SnapshotArchive
