import Mathlib.Data.Finset.Max
import Mathlib.Data.Finset.Sort
import Mathlib.Tactic.Common
import SnapshotArchive.Proofs.LedgerOrder

/-!
A ledger is a set of numbers with a length. Whatever is done to a ledger is done to such a set, with the
same replies, and every question about the ledger is answered by the set: bits are kept in packed words,
but no word shows.
-/

namespace SnapshotArchive

variable {σ ε : Type}

/-- What may be done to a ledger. Retaining asks a function that has a state of its own. -/
inductive LedgerCall (σ ε : Type) where
  | resize (len : Nat)
  | reserve (i : Nat)
  | set (i : Nat)
  | clear (i : Nat)
  | retain (keep : Nat → StateM σ (Except ε Bool)) (start : σ)
  | compact (last? : Option Nat)

/-- What a call replies: nothing, that it faults, or how asking ended and the state that the function
    was left in. -/
inductive LedgerReply (σ ε : Type) where
  | done
  | fault (f : Fault)
  | asked (outcome : Except ε Unit) (state : σ)

/-- The replies of `step` to some calls, and the state that they lead to. -/
def replies {state call reply : Type} (step : state → call → reply × state) :
    state → List call → List reply × state
  | s, [] => ([], s)
  | s, c :: rest =>
    let (r, s) := step s c
    let (rs, s) := replies step s rest
    (r :: rs, s)

/-- A set of numbers below a length. -/
@[ext] structure BitSet where
  len : Nat
  bits : Finset Nat

namespace BitSet

/-- No numbers. -/
def empty : BitSet := ⟨0, ∅⟩

/-- Asks `keep` about numbers in turn, up to the first error: what was answered, how it ended, and
    the state of the function then. -/
def ask (keep : Nat → StateM σ (Except ε Bool)) : List Nat → σ → List (Nat × Bool) × Except ε Unit × σ
  | [], s => ([], .ok (), s)
  | i :: rest, s =>
    match keep i s with
    | (.error e, s) => ([], .error e, s)
    | (.ok kept, s) =>
      let (answers, outcome, s) := ask keep rest s
      ((i, kept) :: answers, outcome, s)

/-- What a call does to the set `b`. Retaining asks about its numbers, ascending, and takes those
    out that were answered with `false`. -/
def call (b : BitSet) : LedgerCall σ ε → LedgerReply σ ε × BitSet
  | .resize len => (.done, ⟨len, b.bits.filter (· < len)⟩)
  | .reserve i => (.done, if b.len ≤ i then { b with len := 2 * (i + 1) } else b)
  | .set i =>
    if i < b.len then (.done, { b with bits := insert i b.bits }) else (.fault (.ledgerIndex i), b)
  | .clear i =>
    if i < b.len then (.done, { b with bits := b.bits.erase i }) else (.fault (.ledgerIndex i), b)
  | .retain keep start =>
    let (answers, outcome, state) := ask keep b.bits.sort start
    (.asked outcome state, { b with bits := b.bits.filter fun i => (i, false) ∉ answers })
  | .compact none => (.done, empty)
  | .compact (some i) => (.done, { b with len := i + 1 })

/-- The set `b` is not compacted below its numbers. -/
def Admits (b : BitSet) : LedgerCall σ ε → Prop
  | .compact (some last) => ∀ i ∈ b.bits, i ≤ last
  | _ => True

/-- No call in turn compacts the set below its numbers. -/
def AdmitsAll : BitSet → List (LedgerCall σ ε) → Prop
  | _, [] => True
  | b, c :: rest => b.Admits c ∧ (b.call c).2.AdmitsAll rest

end BitSet

namespace Ledger

/-- What a call does to the ledger `l`. A call that faults leaves it as it is. -/
def call (l : Ledger) : LedgerCall σ ε → LedgerReply σ ε × Ledger
  | .resize len => (.done, l.resize len)
  | .reserve i => (.done, l.reserve i)
  | .set i =>
    match l.set? i with
    | .ok l => (.done, l)
    | .error f => (.fault f, l)
  | .clear i =>
    match l.clear? i with
    | .ok l => (.done, l)
    | .error f => (.fault f, l)
  | .retain keep start =>
    let ((outcome, l), state) := l.retain keep start
    (.asked outcome state, l)
  | .compact last? => (.done, l.compact last?)

/-- Every question about `l` is answered by the set `b`. -/
structure Shows (l : Ledger) (b : BitSet) : Prop where
  len : l.len = b.len
  isEmpty : l.isEmpty = decide (b.len = 0)
  below : ∀ i ∈ b.bits, i < b.len
  get : ∀ i, l.get? i = if i < b.len then .ok (decide (i ∈ b.bits)) else .error (.ledgerIndex i)
  countOnes : l.countOnes = b.bits.card
  lastOne : l.lastOne? = if h : b.bits.Nonempty then some (b.bits.max' h) else none
  ones : l.ones = b.bits.sort
  onesIn : ∀ start stop, l.onesIn start stop = (b.bits.filter fun i => start ≤ i ∧ i < stop).sort
  bytes_length : l.bytes.length = ceilDiv b.len 8
  bytes : ∀ k (h : k < l.bytes.length), ∀ j < 8,
    l.bytes[k].toNat.testBit j = decide (8 * k + j ∈ b.bits)

/-- The set of the bits of `l` that are set. -/
def toSet (l : Ledger) : BitSet := ⟨l.len, l.ones.toFinset⟩

variable {l : Ledger}

@[simp] theorem len_toSet (l : Ledger) : l.toSet.len = l.len := rfl

@[simp] theorem mem_toSet {i : Nat} : i ∈ l.toSet.bits ↔ l.has i = true := by
  rw [toSet, List.mem_toFinset, mem_ones]

/-- Numbers `is` that are listed in ascending order are listed as a sort of `s` lists them. -/
theorem sort_eq_of_pairwise {s : Finset Nat} {is : List Nat} (h : is.Pairwise (· < ·))
    (hmem : ∀ i, i ∈ is ↔ i ∈ s) : s.sort = is :=
  s.sortedLT_sort.pairwise.eq_of_mem_iff h fun i => by rw [Finset.mem_sort, hmem]

theorem sort_toSet (l : Ledger) : l.toSet.bits.sort = l.ones :=
  sort_eq_of_pairwise l.pairwise_ones fun i => by rw [mem_toSet, mem_ones]

/-! ### Questions -/

/-- Counting the bits of each word counts the set bits. -/
theorem countOnes_eq (l : Ledger) : l.countOnes = l.ones.length := by
  have hsum : ∀ (ws : List (BitVec 64)) (n : Nat),
      ws.foldl (fun total w => total + (bitsOf w).length) n =
        n + (ws.map fun w => (bitsOf w).length).sum := by
    intro ws
    induction ws with
    | nil => exact fun n => rfl
    | cons w ws ih =>
      intro n
      rw [List.foldl_cons, ih, List.map_cons, List.sum_cons, Nat.add_assoc]
  have hwords : l.words.toList.map (fun w => (bitsOf w).length) =
      (List.range l.words.size).map fun w => (l.wordOnes w).length := by
    refine List.ext_getElem (by simp) fun j hj hj' => ?_
    have hlt : j < l.words.size := by simpa using hj
    simp [wordOnes, hlt]
  rw [ones_eq_flatMap, List.length_flatMap, ← hwords, countOnes, ← Array.foldl_toList, hsum,
    Nat.zero_add]

/-- Bit `j` of byte `k` is bit `8 * k + j`. -/
theorem testBit_bytes (l : Ledger) {k j : Nat} (h : k < l.bytes.length) (hj : j < 8) :
    l.bytes[k].toNat.testBit j = l.has (8 * k + j) := by
  have hword : (8 * k + j) / 64 = k / 8 := by omega
  have hbit : (8 * k + j) % 64 = 8 * (k % 8) + j := by omega
  have hbyte : l.bytes[k] = UInt8.ofNat ((l.words[k / 8]?.getD 0).toNat >>> (8 * (k % 8))) := by
    simp [bytes]
  rw [hbyte, has, bitAt, hword, hbit, UInt8.toNat_ofNat', Nat.testBit_mod_two_pow,
    Nat.testBit_shiftRight, BitVec.getLsbD, decide_eq_true hj, Bool.true_and]

/-- A ledger `l` shows the set of its bits. -/
theorem shows_toSet (l : Ledger) : l.Shows l.toSet where
  len := rfl
  isEmpty := beq_eq_decide ..
  below i hi := lt_len_of_has (mem_toSet.1 hi)
  get i := by
    unfold get?
    simp only [len_toSet, mem_toSet, Bool.decide_eq_true]
  countOnes := by rw [countOnes_eq, ← sort_toSet, Finset.length_sort]
  lastOne := by
    cases hlast : l.lastOne? with
    | none =>
      have hempty : ¬ l.toSet.bits.Nonempty := by
        rintro ⟨i, hi⟩
        rw [mem_toSet, lastOne?_eq_none hlast] at hi
        cases hi
      rw [dif_neg hempty]
    | some m =>
      obtain ⟨hm, hmax⟩ := lastOne?_eq_some hlast
      have hmem : m ∈ l.toSet.bits := mem_toSet.2 hm
      rw [dif_pos ⟨m, hmem⟩]
      refine congrArg some (le_antisymm (Finset.le_max' _ m hmem) (Finset.max'_le _ _ _ ?_))
      exact fun i hi => hmax i (mem_toSet.1 hi)
  ones := (sort_toSet l).symm
  onesIn start stop := by
    refine (sort_eq_of_pairwise (l.pairwise_onesIn start stop) fun i => ?_).symm
    rw [mem_onesIn, Finset.mem_filter, mem_toSet, ← and_assoc, and_comm]
  bytes_length := by simp [Ledger.bytes]
  bytes k h j hj := by rw [testBit_bytes l h hj]; simp only [mem_toSet, Bool.decide_eq_true]

/-! ### Calls -/

/-- Retaining bits `is` asks as the set is asked, and clears the bits that were answered with
    `false`. -/
theorem retainAmong_ask (keep : Nat → StateM σ (Except ε Bool)) (is : List Nat) (l : Ledger) (s : σ) :
    ∃ l', (retainAmong keep is l).run s = (((BitSet.ask keep is s).2.1, l'), (BitSet.ask keep is s).2.2) ∧
      l'.len = l.len ∧
      ∀ i, l'.has i = (l.has i && decide ((i, false) ∉ (BitSet.ask keep is s).1)) := by
  induction is generalizing l s with
  | nil => exact ⟨l, rfl, rfl, fun i => by simp [BitSet.ask]⟩
  | cons i rest ih =>
    rw [BitSet.ask, run_retainAmong_cons, StateT.run]
    rcases keep i s with ⟨e | kept, s'⟩
    · exact ⟨l, rfl, rfl, fun j => by simp⟩
    cases kept with
    | true =>
      obtain ⟨l', hrun, hlen, hhas⟩ := ih l s'
      refine ⟨l', hrun, hlen, fun j => ?_⟩
      rw [hhas]
      simp
    | false =>
      obtain ⟨l', hrun, hlen, hhas⟩ := ih (l.erase i) s'
      refine ⟨l', hrun, hlen.trans (len_erase l i), fun j => ?_⟩
      rw [hhas, has_erase, Bool.and_assoc, ← Bool.decide_and]
      simp

/-- A set `b` is told by its length and its numbers. -/
theorem toSet_eq {b : BitSet} (hlen : l.len = b.len) (h : ∀ i, l.has i = true ↔ i ∈ b.bits) :
    l.toSet = b := by
  refine BitSet.ext hlen (Finset.ext fun i => ?_)
  rw [mem_toSet, h]

/-- A call `c` does to the set of `l` what it does to `l`, with the same reply. -/
theorem call_toSet (l : Ledger) (c : LedgerCall σ ε) (h : l.toSet.Admits c) :
    l.toSet.call c = ((l.call c).1, (l.call c).2.toSet) := by
  cases c with
  | resize len =>
    refine Prod.ext rfl (toSet_eq rfl fun i => ?_).symm
    simp [call, BitSet.call, has_resize]
  | reserve i =>
    refine Prod.ext rfl (toSet_eq ?_ fun j => ?_).symm
    · by_cases hi : l.len ≤ i
      · simp only [call, BitSet.call, reserve, len_toSet, hi, if_true]
        exact Nat.mul_comm ..
      · simp only [call, BitSet.call, reserve, len_toSet, hi, if_false]
    · simp only [call, BitSet.call, has_reserve, apply_ite BitSet.bits, ite_self, mem_toSet]
  | set i =>
    by_cases hi : i < l.len
    · simp only [call, BitSet.call, set?, len_toSet, hi, if_true]
      refine Prod.ext rfl (toSet_eq (len_insert l i) fun j => ?_).symm
      simp [has_insert l hi, or_comm]
    · simp only [call, BitSet.call, set?, len_toSet, hi, if_false]
  | clear i =>
    by_cases hi : i < l.len
    · simp only [call, BitSet.call, clear?, len_toSet, hi, if_true]
      refine Prod.ext rfl (toSet_eq (len_erase l i) fun j => ?_).symm
      simp [has_erase, and_comm]
    · simp only [call, BitSet.call, clear?, len_toSet, hi, if_false]
  | retain keep start =>
    obtain ⟨l', hrun, hlen, hhas⟩ := retainAmong_ask keep l.ones l start
    have hretain : l.retain keep start = _ := hrun
    simp only [call, BitSet.call, sort_toSet, hretain]
    refine Prod.ext rfl (toSet_eq hlen fun i => ?_).symm
    simp [hhas]
  | compact last? =>
    cases last? with
    | none =>
      refine Prod.ext rfl (toSet_eq rfl fun i => ?_).symm
      simp [call, compact, has_resize, BitSet.call, BitSet.empty]
    | some last =>
      refine Prod.ext rfl (toSet_eq rfl fun i => ?_).symm
      have hlast : l.has i = true → i < last + 1 := fun hi =>
        Nat.lt_succ_of_le (h i (mem_toSet.2 hi))
      simpa [call, compact, has_resize, BitSet.call] using hlast

/-- A run of `calls` does to the set of `l` what it does to `l`, with the same replies. -/
theorem replies_toSet (l : Ledger) (calls : List (LedgerCall σ ε)) (h : l.toSet.AdmitsAll calls) :
    replies BitSet.call l.toSet calls =
      ((replies call l calls).1, (replies call l calls).2.toSet) := by
  induction calls generalizing l with
  | nil => rfl
  | cons c rest ih =>
    obtain ⟨hc, hrest⟩ := h
    have hstep := call_toSet l c hc
    rw [hstep] at hrest
    simp only [replies, hstep, ih _ hrest]

theorem toSet_empty : empty.toSet = BitSet.empty := toSet_eq rfl fun i => by simp [BitSet.empty]

/-- Whatever `calls` are made on a new ledger, it replies as a set with a length does and answers
    every question as that set does, as long as it is not compacted below its bits. -/
theorem refines_set (calls : List (LedgerCall σ ε)) (h : BitSet.empty.AdmitsAll calls) :
    (replies Ledger.call Ledger.empty calls).1 = (replies BitSet.call BitSet.empty calls).1 ∧
      (replies Ledger.call Ledger.empty calls).2.Shows (replies BitSet.call BitSet.empty calls).2 := by
  rw [← toSet_empty] at h ⊢
  rw [replies_toSet empty calls h]
  exact ⟨rfl, shows_toSet _⟩

/-- Bits of three words, of which one is dropped by shrinking, one is compacted away to the last, and one
    is turned down; a bit past the end, and an error at the last bit. -/
def variedCalls : List (LedgerCall (List Nat) Nat) :=
  [.reserve 63, .set 70, .resize 65, .resize 200, .set 3, .set 64, .set 130, .set 200, .compact (some 130),
    .retain (fun i seen => (if i = 130 then .error i else .ok (i % 2 = 1), i :: seen)) []]

/-- What a run replies and what is left of its bits, 3 and 130. -/
theorem refines_set_varied : BitSet.empty.AdmitsAll variedCalls ∧
    (replies BitSet.call BitSet.empty variedCalls).1.length = 10 ∧
    (replies BitSet.call BitSet.empty variedCalls).2.bits.sort = [3, 130] := by
  have hadmits : BitSet.empty.AdmitsAll variedCalls :=
    ⟨trivial, trivial, trivial, trivial, trivial, trivial, trivial, trivial,
      show ∀ i ∈ _, i ≤ 130 by decide, trivial, trivial⟩
  obtain ⟨hreplies, hshows⟩ := refines_set variedCalls hadmits
  refine ⟨hadmits, ?_, ?_⟩
  · rw [← hreplies]
    decide +kernel
  · rw [← hshows.ones]
    decide +kernel

end Ledger

end SnapshotArchive
