import Mathlib.Data.List.Sort
import Mathlib.Tactic.Common
import SnapshotArchive.LedgerScan
import SnapshotArchive.Proofs.LedgerOrder

/-!
Scanning packed words finds the set bits as they are listed. A search from bit `start` up to `stop`
finds `onesIn start stop`, one bit with each step, and a walk that clears the lowest bit of a word
again and again asks about the same bits as `retain` and leaves the same ledger.
-/

namespace SnapshotArchive

namespace Ledger

variable {l : Ledger}

/-! ### The lowest bit of a word -/

/-- If `t` is the lowest set bit of `n`, `n &&& (n - 1)` has the bits of `n` other than `t`. -/
theorem testBit_and_pred {n t : Nat} (hset : n.testBit t = true) (hlow : ∀ j < t, n.testBit j = false)
    (i : Nat) : (n &&& (n - 1)).testBit i = (n.testBit i && decide (i ≠ t)) := by
  rw [Nat.testBit_and]
  induction t generalizing n i with
  | zero =>
    have hodd : n % 2 = 1 := by simpa using hset
    cases i with
    | zero => simp [hodd]; omega
    | succ i =>
      have hhalf : (n - 1) / 2 = n / 2 := by omega
      simp [Nat.testBit_succ, hhalf]
  | succ t ih =>
    have heven : n % 2 = 0 := by simpa using hlow 0 (Nat.succ_pos t)
    cases i with
    | zero => simp [heven]
    | succ i =>
      have hhalf : (n - 1) / 2 = n / 2 - 1 := by omega
      have hrest : ∀ j < t, (n / 2).testBit j = false := fun j hj => by
        simpa [Nat.testBit_succ] using hlow (j + 1) (Nat.succ_lt_succ hj)
      simpa [Nat.testBit_succ, hhalf] using ih (by simpa [Nat.testBit_succ] using hset) hrest i

/-- `b &&& (b - 1)` has the bits of `b` other than the lowest one, for `b ≠ 0`. -/
theorem getLsbD_and_pred {b : BitVec 64} (h : b ≠ 0) (i : Nat) :
    (b &&& (b - 1)).getLsbD i = (b.getLsbD i && decide (i ≠ b.ctz.toNat)) := by
  have hpos : 0 < b.toNat := Nat.pos_of_ne_zero fun h0 => h (BitVec.eq_of_toNat_eq h0)
  have hle : (1 : BitVec 64) ≤ b := by rw [BitVec.le_def]; exact hpos
  have hnat : (b &&& (b - 1)).toNat = b.toNat &&& (b.toNat - 1) := by
    rw [BitVec.toNat_and, BitVec.toNat_sub_of_le hle]; rfl
  unfold BitVec.getLsbD
  rw [hnat]
  exact testBit_and_pred (BitVec.getLsbD_true_ctz_of_ne_zero h)
    (fun j hj => BitVec.getLsbD_false_of_lt_ctz hj) i

/-- The bits of `b ≠ 0` are its lowest one, and then those of `b &&& (b - 1)`. -/
theorem bitsOf_cons {b : BitVec 64} (h : b ≠ 0) :
    bitsOf b = b.ctz.toNat :: bitsOf (b &&& (b - 1)) := by
  have hmem : ∀ i, i ∈ bitsOf (b &&& (b - 1)) ↔ b.getLsbD i = true ∧ i ≠ b.ctz.toNat := fun i => by
    rw [mem_bitsOf, getLsbD_and_pred h, Bool.and_eq_true, decide_eq_true_eq]
  have hlow : ∀ i ∈ bitsOf (b &&& (b - 1)), b.ctz.toNat < i := by
    intro i hi
    obtain ⟨hset, hne⟩ := (hmem i).1 hi
    by_contra hle
    rw [BitVec.getLsbD_false_of_lt_ctz (by omega)] at hset
    cases hset
  refine (pairwise_bitsOf b).eq_of_mem_iff (List.pairwise_cons.2 ⟨hlow, pairwise_bitsOf _⟩) fun i => ?_
  rw [List.mem_cons, hmem, mem_bitsOf]
  constructor
  · exact fun hi => (eq_or_ne i b.ctz.toNat).imp_right fun hne => ⟨hi, hne⟩
  · rintro (rfl | ⟨hi, -⟩)
    · exact BitVec.getLsbD_true_ctz_of_ne_zero h
    · exact hi

/-! ### Searching a range -/

/-- Without set bits from `start` up to `mid` a listing may as well begin at `mid`. -/
theorem onesIn_skip {start mid : Nat} (hle : start ≤ mid)
    (hclear : ∀ i, start ≤ i → i < mid → l.has i = false) (stop : Nat) :
    l.onesIn start stop = l.onesIn mid stop := by
  refine (l.pairwise_onesIn start stop).eq_of_mem_iff (l.pairwise_onesIn mid stop) fun i => ?_
  rw [mem_onesIn, mem_onesIn]
  refine ⟨fun ⟨hi, hstop, hset⟩ => ⟨?_, hstop, hset⟩, fun ⟨hi, h⟩ => ⟨hle.trans hi, h⟩⟩
  by_contra hlt
  rw [hclear i hi (by omega)] at hset
  cases hset

/-- A listing from a set bit `i` is `i`, and then the listing from `i + 1`. -/
theorem onesIn_of_has {i stop : Nat} (hset : l.has i = true) (hlt : i < stop) :
    l.onesIn i stop = i :: l.onesIn (i + 1) stop := by
  have hhigh : ∀ j ∈ l.onesIn (i + 1) stop, i < j := fun j hj => (mem_onesIn.1 hj).1
  refine (l.pairwise_onesIn i stop).eq_of_mem_iff
    (List.pairwise_cons.2 ⟨hhigh, l.pairwise_onesIn (i + 1) stop⟩) fun j => ?_
  rw [List.mem_cons, mem_onesIn, mem_onesIn]
  constructor
  · exact fun ⟨hj, h⟩ => (Nat.eq_or_lt_of_le hj).imp Eq.symm fun hj => ⟨hj, h⟩
  · rintro (rfl | ⟨hj, h⟩)
    · exact ⟨Nat.le_refl _, hlt, hset⟩
    · exact ⟨Nat.le_of_succ_le hj, h⟩

theorem onesIn_eq_nil {start stop : Nat} (h : stop ≤ start) : l.onesIn start stop = [] :=
  List.eq_nil_iff_forall_not_mem.2 fun i hi => by
    obtain ⟨hstart, hstop, -⟩ := mem_onesIn.1 hi
    omega

theorem onesIn_min (l : Ledger) (start stop : Nat) :
    l.onesIn start (min stop l.len) = l.onesIn start stop := by
  unfold onesIn
  rw [Nat.min_assoc, Nat.min_self]

/-- Behind its first bit `i` a listing is the listing from `i + 1`. -/
theorem eq_onesIn_of_cons {start stop i : Nat} {is : List Nat} (h : l.onesIn start stop = i :: is) :
    is = l.onesIn (i + 1) stop := by
  obtain ⟨hlow, hlt, hset⟩ := mem_onesIn.1 (h ▸ List.mem_cons_self : i ∈ l.onesIn start stop)
  have hsorted := l.pairwise_onesIn start stop
  rw [h, List.pairwise_cons] at hsorted
  have hclear : ∀ j, start ≤ j → j < i → l.has j = false := by
    intro j hj hji
    by_contra hjset
    have hmem : j ∈ l.onesIn start stop := mem_onesIn.2 ⟨hj, hji.trans hlt, by simpa using hjset⟩
    rw [h, List.mem_cons] at hmem
    rcases hmem with rfl | hmem
    · exact lt_irrefl j hji
    · exact lt_asymm hji (hsorted.1 j hmem)
  rw [onesIn_skip hlow hclear, onesIn_of_has hset hlt] at h
  exact (List.cons.inj h).2.symm

/-- Bit `k` of the word of bit `i`, shifted so that `i` comes first, is bit `i + k` of the ledger. -/
theorem getLsbD_shifted {i k : Nat} (h : i / 64 < l.words.size) (hk : i % 64 + k < 64) :
    (l.words[i / 64] >>> (i % 64)).getLsbD k = l.has (i + k) := by
  have hword : (i + k) / 64 = i / 64 := by omega
  have hbit : (i + k) % 64 = i % 64 + k := by omega
  rw [BitVec.getLsbD_ushiftRight, has, bitAt, hword, hbit, Array.getElem?_eq_getElem h,
    Option.getD_some]

namespace Scan

/-- The lowest bit that is left of the word of `s.next` is the first set bit from `s.next` on. -/
theorem first_of_shifted {s : Scan l} {bits : BitVec 64} (hsize : s.next / 64 < l.words.size)
    (hbits : l.words[s.next / 64] >>> (s.next % 64) = bits) (hne : bits ≠ 0) :
    l.has (s.next + bits.ctz.toNat) = true ∧
      ∀ i, s.next ≤ i → i < s.next + bits.ctz.toNat → l.has i = false := by
  have hset : bits.getLsbD bits.ctz.toNat = true := BitVec.getLsbD_true_ctz_of_ne_zero hne
  have hk : s.next % 64 + bits.ctz.toNat < 64 := by
    refine BitVec.lt_of_getLsbD (x := l.words[s.next / 64]) ?_
    rw [← BitVec.getLsbD_ushiftRight, hbits]
    exact hset
  refine ⟨by rw [← getLsbD_shifted hsize hk, hbits]; exact hset, fun i hlow hhigh => ?_⟩
  obtain ⟨k, rfl⟩ := Nat.exists_eq_add_of_le hlow
  rw [← getLsbD_shifted hsize (by omega), hbits]
  exact BitVec.getLsbD_false_of_lt_ctz (by omega)

/-- One step of a search finds the first bit of what is listed from `s.next` up to `s.stop`. -/
theorem next?_eq (s : Scan l) : s.next? =
    match l.onesIn s.next s.stop with
    | [] => (none, s.moveTo s.stop)
    | i :: _ => (some i, s.moveTo (i + 1)) := by
  fun_induction next? s with
  | case1 s hlt hsize bits hzero ih =>
    have hclear : ∀ i, s.next ≤ i → i < (s.next / 64 + 1) * 64 → l.has i = false := by
      intro i hlow hhigh
      obtain ⟨k, rfl⟩ := Nat.exists_eq_add_of_le hlow
      rw [← getLsbD_shifted hsize (by omega)]
      change bits.getLsbD k = false
      rw [hzero]
      simp
    rw [ih, onesIn_skip (by omega) hclear]
    rfl
  | case2 s hlt hsize bits hne index hstop =>
    obtain ⟨hset, hclear⟩ := first_of_shifted hsize rfl hne
    rw [onesIn_skip (Nat.le_add_right ..) hclear, onesIn_of_has hset hstop]
  | case3 s hlt hsize bits hne index hstop =>
    obtain ⟨hset, hclear⟩ := first_of_shifted hsize rfl hne
    rw [onesIn_skip (Nat.le_add_right ..) hclear, onesIn_eq_nil (Nat.not_lt.1 hstop)]
  | case4 s hle => rw [onesIn_eq_nil (Nat.not_lt.1 hle)]

/-- A search that has ended finds nothing more. -/
theorem next?_of_none {s s' : Scan l} (h : s.next? = (none, s')) : s'.next? = (none, s') := by
  rw [next?_eq] at h
  split at h
  · cases h
    have hnil : l.onesIn (s.moveTo s.stop).next (s.moveTo s.stop).stop = [] :=
      onesIn_eq_nil (Nat.le_refl s.stop)
    rw [next?_eq, hnil]
    rfl
  · cases h

/-- A search finds the bits that are listed from `s.next` up to `s.stop`. -/
theorem rest_eq (s : Scan l) : s.rest = l.onesIn s.next s.stop := by
  fun_induction rest s with
  | case1 s i s' hfound ih =>
    rw [next?_eq] at hfound
    split at hfound
    · cases hfound
    · rename_i heq
      cases hfound
      rw [ih, heq, eq_onesIn_of_cons heq]
      rfl
  | case2 s s' hended =>
    rw [next?_eq] at hended
    split at hended
    · rename_i heq
      rw [heq]
    · cases hended

end Scan

/-- The search of `l` from `start` up to `stop` finds `onesIn start stop`. -/
theorem rest_scan (l : Ledger) (start stop : Nat) : (l.scan start stop).rest = l.onesIn start stop :=
  (Scan.rest_eq _).trans (l.onesIn_min start stop)

/-! ### Walking over words -/

section Retain

variable {m : Type → Type} [Monad m] {ε : Type} {keep : Nat → m (Except ε Bool)}

/-- A word's walk asks about its bits as they are listed. -/
theorem retainBits_eq (w : Nat) (bits : BitVec 64) (l : Ledger) :
    retainBits keep w bits l = retainAmong keep ((bitsOf bits).map (64 * w + ·)) l := by
  fun_induction retainBits keep w bits l with
  | case1 l => rfl
  | case2 bits l hne i left hlt ihKeep ihClear =>
    rw [bitsOf_cons hne, List.map_cons, retainAmong]
    refine bind_congr fun answer => ?_
    rcases answer with e | b
    · rfl
    · cases b
      · exact ihClear
      · exact ihKeep

/-- Clearing a bit of another word leaves word `w`. -/
theorem words_erase (l : Ledger) {i w : Nat} (h : i / 64 ≠ w) :
    (l.erase i).words[w]? = l.words[w]? := by
  unfold erase
  split
  · rw [Array.getElem?_modify, if_neg h]
  · rfl

variable [LawfulMonad m]

/-- A walk over bits `is` outside of the words `ws`, and over `ws` after it. The words `ws` are then
    still those of `l`, so that `rest` is asked about for them. -/
theorem retainAmong_then_words {is rest ws : List Nat} {l l' : Ledger}
    (hother : ∀ i ∈ is, ∀ v ∈ ws, i / 64 ≠ v) (hsame : ∀ v ∈ ws, l'.words[v]? = l.words[v]?)
    (hwords : ∀ l' : Ledger, (∀ v ∈ ws, l'.words[v]? = l.words[v]?) →
      retainWords keep ws l' = retainAmong keep rest l') :
    (do match ← retainAmong keep is l' with
        | (.error e, l) => pure (.error e, l)
        | (.ok (), l) => retainWords keep ws l) = retainAmong keep (is ++ rest) l' := by
  induction is generalizing l' with
  | nil => rw [retainAmong, pure_bind]; exact hwords l' hsame
  | cons i is ih =>
    have hrest : ∀ i ∈ is, ∀ v ∈ ws, i / 64 ≠ v := fun j hj => hother j (List.mem_cons_of_mem i hj)
    rw [List.cons_append, retainAmong, retainAmong, bind_assoc]
    refine bind_congr fun answer => ?_
    rcases answer with e | b
    · exact pure_bind _ _
    · cases b
      · refine ih hrest fun v hv => ?_
        rw [words_erase l' (hother i List.mem_cons_self v hv), hsame v hv]
      · exact ih hrest hsame

/-- The walk over the words `ws`, each at most once, asks about the bits that are listed for them. -/
theorem retainWords_eq {ws : List Nat} (hws : ws.Nodup) {l l' : Ledger}
    (hsame : ∀ v ∈ ws, l'.words[v]? = l.words[v]?) :
    retainWords keep ws l' = retainAmong keep (ws.flatMap l.wordOnes) l' := by
  induction ws generalizing l' with
  | nil => rfl
  | cons w ws ih =>
    obtain ⟨hw, hnodup⟩ := List.nodup_cons.1 hws
    have hother : ∀ i ∈ l.wordOnes w, ∀ v ∈ ws, i / 64 ≠ v := by
      rintro i hi v hv rfl
      exact hw ((mem_wordOnes.1 hi).1 ▸ hv)
    rw [retainWords, retainBits_eq, hsame w List.mem_cons_self, List.flatMap_cons]
    exact retainAmong_then_words hother (fun v hv => hsame v (List.mem_cons_of_mem w hv))
      fun l' hl' => ih hnodup hl'

/-- Walking over the words of a ledger is `retain`. -/
theorem retainByWords_eq (keep : Nat → m (Except ε Bool)) (l : Ledger) :
    retainByWords keep l = retain keep l := by
  rw [retainByWords, retain, ones_eq_flatMap, retainWords_eq List.nodup_range fun _ _ => rfl]

end Retain

end Ledger

end SnapshotArchive
