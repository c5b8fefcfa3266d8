import Mathlib.Data.List.Sort
import Mathlib.Logic.Function.Basic
import Mathlib.Tactic.Common
import SnapshotArchive.Proofs.Filing
import SnapshotArchive.Proofs.RequestedRanges

/-!
A list by itself. Objects of any sizes are put on it, each once, and fields of any objects are noted, in
any order. The bits of the objects follow each other without a gap, as many for each as it has words, and
the offsets of an object are those that were noted of it, whatever is noted of others.
-/

namespace SnapshotArchive

variable {ι : Type}

/-- A list, and the accounts of the objects `ι` that may be put on it. -/
structure Listing (ι : Type) where
  list : CopyList
  entries : ι → SourceEntry

/-- What may be done with a list and an object. -/
inductive ListCall (ι : Type) where
  | accept (i : ι)
  | mark (i : ι) (field : Word)

namespace ListCall

/-- The object that a call is about. -/
def object : ListCall ι → ι
  | accept i => i
  | mark i _ => i

/-- The object that a call puts on the list, if it does. -/
def accepted? : ListCall ι → Option ι
  | accept i => some i
  | mark _ _ => none

end ListCall

/-- The objects that `calls` put on a list, in this order. -/
def accepted (calls : List (ListCall ι)) : List ι := calls.filterMap ListCall.accepted?

theorem accepted_cons (c : ListCall ι) (calls : List (ListCall ι)) :
    accepted (c :: calls) = c.accepted?.toList ++ accepted calls := by
  unfold accepted
  cases h : c.accepted? <;> simp [h]

/-- The words that the objects `is` take. -/
def wordsOf (objects : ι → SourceEntry) (is : List ι) : Nat :=
  (is.map fun i => ceilDiv (objects i).size wordBytes).sum

@[simp] theorem wordsOf_append (objects : ι → SourceEntry) (is js : List ι) :
    wordsOf objects (is ++ js) = wordsOf objects is + wordsOf objects js := by simp [wordsOf]

@[simp] theorem wordsOf_cons (objects : ι → SourceEntry) (i : ι) (is : List ι) :
    wordsOf objects (i :: is) = ceilDiv (objects i).size wordBytes + wordsOf objects is := by
  simp [wordsOf]

@[simp] theorem wordsOf_nil (objects : ι → SourceEntry) : wordsOf objects [] = 0 := rfl

/-- The address `field` is the word of an object at offset `n`. -/
def SourceEntry.HasField (e : SourceEntry) (field : Word) (n : Nat) : Prop :=
  field.toNat = e.source.toNat + n ∧ wordBytes ∣ n ∧ n + wordBytes ≤ e.size

theorem CopyList.fieldOffset?_eq_some_iff {e : SourceEntry} {field : Word} {n : Nat} :
    fieldOffset? e field = some n ↔ e.HasField field n := by
  unfold fieldOffset? SourceEntry.HasField
  simp only [isAligned_word]
  split_ifs with h
  · rw [Option.some_inj]
    unfold wordBytes at *
    omega
  · simp only [false_iff]
    rintro ⟨hfield, hdvd, hsize⟩
    refine h ⟨by omega, ?_, by omega⟩
    rwa [hfield, Nat.add_sub_cancel_left]

namespace Listing

variable {s : Listing ι} {order : List ι} {objects : ι → SourceEntry} {i j : ι}

/-- The offsets of the pointers of object `i`. -/
def offsets (s : Listing ι) (i : ι) : List Nat := s.list.pointerOffsets (s.entries i)

/-- Offsets are listed ascending, so the same ones of `i` and `j` make the same list. -/
theorem offsets_ext {t : Listing ι} (h : ∀ n, n ∈ s.offsets i ↔ n ∈ t.offsets j) : s.offsets i = t.offsets j :=
  (CopyList.pairwise_pointerOffsets ..).eq_of_mem_iff (CopyList.pairwise_pointerOffsets ..) fun n => h n

/-- A list that the objects of `order` were put on, in this order. -/
structure Filled (order : List ι) (objects : ι → SourceEntry) (s : Listing ι) : Prop where
  source : ∀ i, (s.entries i).source = (objects i).source
  size : ∀ i, (s.entries i).size = (objects i).size
  sources : s.list.sources.toList = order.map fun i => (objects i).source
  total : s.list.totalBytes = wordBytes * wordsOf objects order
  bits : ∀ before i after, order = before ++ i :: after → (s.entries i).bits? =
    some ⟨wordsOf objects before, wordsOf objects before + ceilDiv (objects i).size wordBytes⟩
  unlisted : ∀ i, i ∉ order → (s.entries i).bits? = none
  room : wordsOf objects order ≤ s.list.ledger.len
  marked : ∀ b, s.list.ledger.has b = true → b < wordsOf objects order
  flag : ∀ i, (s.entries i).hasPointers = true ↔ s.offsets i ≠ []

namespace Filled

theorem empty (hfresh : ∀ i, (objects i).bits? = none ∧ (objects i).hasPointers = false) :
    Filled [] objects ⟨.empty, objects⟩ where
  source i := rfl
  size i := rfl
  sources := rfl
  total := rfl
  bits before i after h := by simp at h
  unlisted i _ := (hfresh i).1
  room := Nat.zero_le _
  marked b hb := by
    change Ledger.empty.has b = true at hb
    rw [Ledger.has_empty] at hb
    cases hb
  flag i := by simp [offsets, CopyList.pointerOffsets, hfresh i]

/-- An object `i` that has bits was put on the list, and they follow those of the objects `before`
    it. -/
theorem exists_bits (h : Filled order objects s) {bits : BitRange} (hbits : (s.entries i).bits? = some bits) :
    ∃ before after, order = before ++ i :: after ∧
      bits = ⟨wordsOf objects before, wordsOf objects before + ceilDiv (objects i).size wordBytes⟩ := by
  have hmem : i ∈ order := by
    by_contra hnot
    rw [h.unlisted i hnot] at hbits
    cases hbits
  obtain ⟨before, after, horder⟩ := List.append_of_mem hmem
  exact ⟨before, after, horder, Option.some_inj.1 (hbits.symm.trans (h.bits before i after horder))⟩

/-- The bits of object `i` are among those of the list. -/
theorem stop_le (h : Filled order objects s) {bits : BitRange} (hbits : (s.entries i).bits? = some bits) :
    bits.stop ≤ wordsOf objects order := by
  obtain ⟨before, after, rfl, rfl⟩ := h.exists_bits hbits
  simp only [wordsOf_append, wordsOf_cons]
  omega

/-- The bits of one of the objects `i` and `j` end before those of the other start. -/
theorem apart (h : Filled order objects s) (hne : j ≠ i) {bits bits' : BitRange}
    (hi : (s.entries i).bits? = some bits) (hj : (s.entries j).bits? = some bits') :
    bits.stop ≤ bits'.start ∨ bits'.stop ≤ bits.start := by
  obtain ⟨before, after, rfl, rfl⟩ := h.exists_bits hi
  have hmem : j ∈ before ∨ j ∈ after := by
    by_contra hnot
    rw [h.unlisted j (by simpa [hne] using hnot)] at hj
    cases hj
  rcases hmem with hmem | hmem
  · obtain ⟨front, back, rfl⟩ := List.append_of_mem hmem
    obtain rfl := Option.some_inj.1 (hj.symm.trans (h.bits front j (back ++ i :: after) (by simp)))
    right
    simp only [wordsOf_append, wordsOf_cons]
    omega
  · obtain ⟨front, back, rfl⟩ := List.append_of_mem hmem
    obtain rfl :=
      Option.some_inj.1 (hj.symm.trans (h.bits (before ++ i :: front) j back (by simp)))
    left
    simp only [wordsOf_append, wordsOf_cons]
    omega

/-- A `field` is noted if object `i` is on the list and has the field; otherwise it is refused. The
    list has a bit for it, so noting never faults. -/
theorem markField_cases (h : Filled order objects s) (i : ι) (field : Word) :
    (∃ bits n, (s.entries i).bits? = some bits ∧ i ∈ order ∧ (objects i).HasField field n ∧
      bits.start + n / wordBytes < bits.stop ∧ bits.start + n / wordBytes < s.list.ledger.len ∧
      s.list.markField (s.entries i) field =
        .ok ({ s.list with ledger := s.list.ledger.insert (bits.start + n / wordBytes) },
          { s.entries i with hasPointers := true })) ∨
    ¬ (i ∈ order ∧ ∃ n, (objects i).HasField field n) ∧
      s.list.markField (s.entries i) field =
        .error (Violation.badField (s.entries i).source field (s.entries i).size) := by
  have hfield : ∀ n, (s.entries i).HasField field n ↔ (objects i).HasField field n := fun n => by
    rw [SourceEntry.HasField, SourceEntry.HasField, h.source, h.size]
  unfold CopyList.markField
  cases hbits : (s.entries i).bits? with
  | none =>
    refine .inr ⟨?_, rfl⟩
    rintro ⟨hmem, -⟩
    obtain ⟨before, after, horder⟩ := List.append_of_mem hmem
    rw [h.bits before i after horder] at hbits
    cases hbits
  | some bits =>
    obtain ⟨before, after, horder, hrange⟩ := h.exists_bits hbits
    cases hoffset : CopyList.fieldOffset? (s.entries i) field with
    | none =>
      refine .inr ⟨?_, rfl⟩
      rintro ⟨-, n, hn⟩
      rw [← hfield, ← CopyList.fieldOffset?_eq_some_iff, hoffset] at hn
      cases hn
    | some n =>
      have hn := (hfield n).1 (CopyList.fieldOffset?_eq_some_iff.1 hoffset)
      have hin : bits.start + n / wordBytes < bits.stop := by
        obtain ⟨-, -, hsize⟩ := hn
        rw [hrange]
        unfold ceilDiv wordBytes at *
        dsimp only
        omega
      have hlen : bits.start + n / wordBytes < s.list.ledger.len :=
        Nat.lt_of_lt_of_le hin (Nat.le_trans (h.stop_le hbits) h.room)
      refine .inl ⟨bits, n, rfl, by rw [horder]; simp, hn, hin, hlen, ?_⟩
      simp only [Ledger.set?, if_pos hlen, hbits]

theorem markField_isOk_iff (h : Filled order objects s) (i : ι) (field : Word) :
    (∃ r, s.list.markField (s.entries i) field = .ok r) ↔ i ∈ order ∧ ∃ n, (objects i).HasField field n := by
  rcases h.markField_cases i field with ⟨bits, n, -, hmem, hfield, -, -, hmark⟩ | ⟨hnot, hmark⟩
  · rw [hmark]
    exact ⟨fun _ => ⟨hmem, n, hfield⟩, fun _ => ⟨_, rfl⟩⟩
  · rw [hmark]
    refine ⟨?_, fun hfield => absurd hfield hnot⟩
    rintro ⟨r, ⟨⟩⟩

theorem markField_ne_fault (h : Filled order objects s) (i : ι) (field : Word) (f : Fault) :
    s.list.markField (s.entries i) field ≠ .error (.fault f) := by
  rcases h.markField_cases i field with ⟨bits, n, -, -, -, -, -, hmark⟩ | ⟨-, hmark⟩
  · rw [hmark]
    rintro ⟨⟩
  · rw [hmark]
    rintro ⟨⟩

/-- An object `i` takes whole words from the end of the list on. -/
theorem bytesWith_eq (h : Filled order objects s) {i : ι}
    (hroom : wordBytes * wordsOf objects (order ++ [i]) < addressLimit) :
    s.list.bytesWith (s.entries i).size = wordBytes * wordsOf objects (order ++ [i]) := by
  have hup : roundUp (s.list.totalBytes + (s.entries i).size) wordBytes =
      wordBytes * wordsOf objects (order ++ [i]) := by
    rw [h.total, h.size]
    simp only [wordsOf_append, wordsOf_cons, wordsOf_nil]
    unfold roundUp ceilDiv wordBytes
    omega
  rw [CopyList.bytesWith, alignUp?_words, hup, if_pos hroom, Option.getD_some]

end Filled

/-- The object and the offset that a call on `s` notes. -/
def noted? (s : Listing ι) : ListCall ι → Option (ι × Nat)
  | .accept _ => none
  | .mark i field =>
    match s.list.markField (s.entries i) field with
    | .ok _ => some (i, field.toNat - (s.entries i).source.toNat)
    | .error _ => none

/-- A call `c` notes a field of the object it is about. -/
theorem object_of_noted? {c : ListCall ι} {n : Nat} (h : s.noted? c = some (i, n)) : i = c.object := by
  unfold noted? at h
  split at h
  · cases h
  · split at h <;> cases h
    rfl

variable [DecidableEq ι]

/-- The list and the accounts `s` after a call, whether it was accepted or refused. -/
def call (s : Listing ι) : ListCall ι → Listing ι
  | .accept i => ⟨s.list.accept (s.entries i), Function.update s.entries i (s.list.listed (s.entries i))⟩
  | .mark i field =>
    match s.list.markField (s.entries i) field with
    | .ok (l, e) => ⟨l, Function.update s.entries i e⟩
    | .error _ => s

/-- The list and the accounts `s` after some `calls`. -/
def afterCalls (s : Listing ι) (calls : List (ListCall ι)) : Listing ι := calls.foldl call s

/-- The objects and offsets that some calls on `s` note. -/
def notedBy (s : Listing ι) : List (ListCall ι) → List (ι × Nat)
  | [] => []
  | c :: calls => (s.noted? c).toList ++ (s.call c).notedBy calls

/-- The list with one more bit `b`, which belongs to object `i`. -/
def withBit (s : Listing ι) (i : ι) (b : Nat) : Listing ι where
  list := { s.list with ledger := s.list.ledger.insert b }
  entries := Function.update s.entries i { s.entries i with hasPointers := true }

theorem source_withBit (s : Listing ι) (i j : ι) (b : Nat) :
    ((s.withBit i b).entries j).source = (s.entries j).source := by
  rcases eq_or_ne j i with rfl | hj <;> simp [withBit, *]

theorem size_withBit (s : Listing ι) (i j : ι) (b : Nat) :
    ((s.withBit i b).entries j).size = (s.entries j).size := by
  rcases eq_or_ne j i with rfl | hj <;> simp [withBit, *]

theorem bits_withBit (s : Listing ι) (i j : ι) (b : Nat) :
    ((s.withBit i b).entries j).bits? = (s.entries j).bits? := by
  rcases eq_or_ne j i with rfl | hj <;> simp [withBit, *]

namespace Filled

/-- Bit `bits.start + m` of object `i` does not show in another object `j`. -/
theorem mem_offsets_withBit (h : Filled order objects s) {bits : BitRange} {m : Nat}
    (hbits : (s.entries i).bits? = some bits) (hin : bits.start + m < bits.stop) (j : ι) (n : Nat) :
    n ∈ (s.withBit i (bits.start + m)).offsets j ↔ n ∈ s.offsets j ∨ j = i ∧ n = m * wordBytes := by
  have hlen : bits.start + m < s.list.ledger.len :=
    Nat.lt_of_lt_of_le hin (Nat.le_trans (h.stop_le hbits) h.room)
  have hhas : ∀ b, (s.withBit i (bits.start + m)).list.ledger.has b = true ↔
      s.list.ledger.has b = true ∨ b = bits.start + m := fun b => by
    rw [withBit, Ledger.has_insert _ hlen, Bool.or_eq_true, decide_eq_true_eq]
  unfold offsets
  simp only [CopyList.mem_pointerOffsets, CopyList.Notes, bits_withBit, hhas]
  constructor
  · rintro ⟨w, ⟨bits', hbits', hlt, hset | heq⟩, rfl⟩
    · exact .inl ⟨w, ⟨bits', hbits', hlt, hset⟩, rfl⟩
    · right
      by_cases hj : j = i
      · subst hj
        obtain rfl := Option.some_inj.1 (hbits.symm.trans hbits')
        exact ⟨rfl, by rw [Nat.add_left_cancel heq]⟩
      · have := h.apart hj hbits hbits'
        omega
  · rintro (⟨w, ⟨bits', hbits', hlt, hset⟩, rfl⟩ | ⟨rfl, rfl⟩)
    · exact ⟨w, ⟨bits', hbits', hlt, .inl hset⟩, rfl⟩
    · exact ⟨m, ⟨bits, hbits, hin, .inr rfl⟩, rfl⟩

theorem withBit (h : Filled order objects s) {bits : BitRange} {m : Nat}
    (hbits : (s.entries i).bits? = some bits) (hin : bits.start + m < bits.stop) :
    Filled order objects (s.withBit i (bits.start + m)) where
  source j := (source_withBit ..).trans (h.source j)
  size j := (size_withBit ..).trans (h.size j)
  sources := h.sources
  total := h.total
  bits before j after horder := (bits_withBit ..).trans (h.bits before j after horder)
  unlisted j hj := (bits_withBit ..).trans (h.unlisted j hj)
  room := by
    rw [Listing.withBit, Ledger.len_insert]
    exact h.room
  marked b hb := by
    have hstop := h.stop_le hbits
    rw [Listing.withBit, Ledger.has_insert _ (by have := h.room; omega), Bool.or_eq_true,
      decide_eq_true_eq] at hb
    rcases hb with hb | rfl
    · exact h.marked b hb
    · omega
  flag j := by
    have hmem := h.mem_offsets_withBit hbits hin j
    by_cases hj : j = i
    · subst hj
      have hsome : m * wordBytes ∈ (s.withBit j (bits.start + m)).offsets j := (hmem _).2 (.inr ⟨rfl, rfl⟩)
      simp only [ne_eq, List.ne_nil_of_mem hsome, not_false_eq_true, iff_true]
      simp [Listing.withBit]
    · have hsame : ((s.withBit i (bits.start + m)).entries j) = s.entries j := Function.update_of_ne hj ..
      rw [hsame, h.flag j]
      refine not_congr ?_
      simp only [List.eq_nil_iff_forall_not_mem, hmem, hj, false_and, or_false]

/-- Noting a `field` of object `i` adds its offset to those of the object. -/
theorem mark (h : Filled order objects s) (i : ι) (field : Word) :
    Filled order objects (s.call (.mark i field)) ∧
      ∀ j n, n ∈ (s.call (.mark i field)).offsets j ↔
        n ∈ s.offsets j ∨ s.noted? (.mark i field) = some (j, n) := by
  rcases h.markField_cases i field with ⟨bits, n, hbits, hmem, hfield, hin, hlen, hmark⟩ | ⟨-, hmark⟩
  · have hcall : s.call (.mark i field) = s.withBit i (bits.start + n / wordBytes) := by
      simp only [call, hmark, Listing.withBit]
    have hnoted : s.noted? (.mark i field) = some (i, n) := by
      simp only [noted?, hmark, h.source, hfield.1, Nat.add_sub_cancel_left]
    rw [hcall, hnoted]
    refine ⟨h.withBit hbits hin, fun j m => ?_⟩
    rw [h.mem_offsets_withBit hbits hin, Nat.div_mul_cancel hfield.2.1, Option.some_inj, Prod.mk_inj,
      eq_comm (a := i), eq_comm (a := n)]
  · have hcall : s.call (.mark i field) = s := by simp only [call, hmark]
    have hnoted : s.noted? (.mark i field) = none := by simp only [noted?, hmark]
    rw [hcall, hnoted]
    exact ⟨h, fun j n => by simp⟩

/-- An object `i` that is put on the list has the bits after all others, and no offsets yet. -/
theorem accept (h : Filled order objects s) (hnew : i ∉ order)
    (hroom : wordBytes * wordsOf objects (order ++ [i]) < addressLimit) :
    Filled (order ++ [i]) objects (s.call (.accept i)) ∧
      ∀ j, (s.call (.accept i)).offsets j = s.offsets j := by
  have htotal := h.bytesWith_eq hroom
  have hpos : 0 < wordBytes := by decide
  have hledger : ∀ b, (s.call (.accept i)).list.ledger.has b = s.list.ledger.has b :=
    fun b => Ledger.has_reserve ..
  have hlisted : ((s.call (.accept i)).entries i).bits? =
      some ⟨wordsOf objects order, wordsOf objects order + ceilDiv (objects i).size wordBytes⟩ := by
    simp [call, CopyList.listed, CopyList.nextBits, htotal, h.total, hpos]
  have hother : ∀ j, j ≠ i → (s.call (.accept i)).entries j = s.entries j := fun j hj =>
    Function.update_of_ne hj ..
  have hkept : ∀ j, ((s.call (.accept i)).entries j).source = (s.entries j).source ∧
      ((s.call (.accept i)).entries j).size = (s.entries j).size ∧
      ((s.call (.accept i)).entries j).hasPointers = (s.entries j).hasPointers := by
    intro j
    rcases eq_or_ne j i with rfl | hj
    · simp [call, CopyList.listed]
    · rw [hother j hj]
      exact ⟨rfl, rfl, rfl⟩
  -- bits are set only below the new ones, so a new object has none
  have hmem : ∀ j n, n ∈ (s.call (.accept i)).offsets j ↔ n ∈ s.offsets j := by
    intro j n
    unfold offsets
    simp only [CopyList.mem_pointerOffsets, CopyList.Notes, hledger]
    rcases eq_or_ne j i with rfl | hj
    · rw [hlisted, h.unlisted j hnew]
      constructor
      · rintro ⟨w, ⟨bits, hbits, -, hset⟩, -⟩
        cases hbits
        exact absurd (h.marked _ hset) (Nat.not_lt.2 (Nat.le_add_right ..))
      · rintro ⟨w, ⟨bits, ⟨⟩, -⟩, -⟩
    · rw [hother j hj]
  have hoffsets : ∀ j, (s.call (.accept i)).offsets j = s.offsets j := fun j => offsets_ext (hmem j)
  refine ⟨?_, hoffsets⟩
  exact {
    source := fun j => (hkept j).1.trans (h.source j)
    size := fun j => (hkept j).2.1.trans (h.size j)
    sources := by
      rw [List.map_append, ← h.sources, List.map_singleton, ← h.source i]
      exact SessionM.sources_accept ..
    -- the list is either as it was, or ends in the object that was just put on it
    total := htotal
    bits := fun before j after horder => by
      rcases List.eq_nil_or_concat after with rfl | ⟨front, k, rfl⟩
      · obtain ⟨rfl, hi⟩ := List.append_inj' horder rfl
        obtain rfl := List.singleton_inj.1 hi
        exact hlisted
      · rw [List.concat_eq_append, ← List.cons_append, ← List.append_assoc] at horder
        obtain ⟨hfront, -⟩ := List.append_inj' horder rfl
        have hj : j ∈ order := by
          rw [hfront]
          simp
        rw [hother j (by rintro rfl; exact hnew hj)]
        exact h.bits before j front hfront
    unlisted := fun j hj => by
      rw [List.mem_append, List.mem_singleton, not_or] at hj
      rw [hother j hj.2]
      exact h.unlisted j hj.1
    room := by
      have hlen : s.list.bytesWith (s.entries i).size / wordBytes < (s.call (.accept i)).list.ledger.len :=
        Ledger.lt_len_reserve ..
      rw [htotal, Nat.mul_div_cancel_left _ hpos] at hlen
      exact Nat.le_of_lt hlen
    marked := fun b hb => by
      rw [hledger] at hb
      rw [wordsOf_append]
      exact Nat.lt_of_lt_of_le (h.marked b hb) (Nat.le_add_right ..)
    flag := fun j => by rw [(hkept j).2.2, hoffsets, h.flag] }

/-- A call `c` keeps the bits in order, and adds what it notes to the offsets of its object. -/
theorem call (h : Filled order objects s) (c : ListCall ι) (honce : (order ++ c.accepted?.toList).Nodup)
    (hroom : wordBytes * wordsOf objects (order ++ c.accepted?.toList) < addressLimit) :
    Filled (order ++ c.accepted?.toList) objects (s.call c) ∧
      ∀ j n, n ∈ (s.call c).offsets j ↔ n ∈ s.offsets j ∨ s.noted? c = some (j, n) := by
  cases c with
  | accept i =>
    have hnew : i ∉ order := fun hi => (List.nodup_append.1 honce).2.2 i hi i (List.mem_singleton.2 rfl) rfl
    obtain ⟨hfilled, hoffsets⟩ := h.accept hnew hroom
    exact ⟨hfilled, fun j n => by simp [hoffsets, noted?]⟩
  | mark i field =>
    simpa [ListCall.accepted?] using h.mark i field

end Filled

theorem Filled.afterCalls (h : Filled order objects s) (calls : List (ListCall ι))
    (honce : (order ++ accepted calls).Nodup)
    (hroom : wordBytes * wordsOf objects (order ++ accepted calls) < addressLimit) :
    Filled (order ++ accepted calls) objects (s.afterCalls calls) ∧
      ∀ j n, n ∈ (s.afterCalls calls).offsets j ↔ n ∈ s.offsets j ∨ (j, n) ∈ s.notedBy calls := by
  induction calls generalizing s order with
  | nil => simpa [accepted, Listing.afterCalls, notedBy] using h
  | cons c rest ih =>
    rw [accepted_cons, ← List.append_assoc] at honce hroom ⊢
    have hle : wordsOf objects (order ++ c.accepted?.toList) ≤
        wordsOf objects (order ++ c.accepted?.toList ++ accepted rest) := by
      rw [wordsOf_append _ (order ++ _)]
      exact Nat.le_add_right ..
    obtain ⟨hcall, hstep⟩ :=
      h.call c honce.of_append_left (Nat.lt_of_le_of_lt (Nat.mul_le_mul_left _ hle) hroom)
    obtain ⟨hrest, hrun⟩ := ih hcall honce hroom
    refine ⟨hrest, fun j n => (hrun j n).trans ?_⟩
    rw [hstep, notedBy, List.mem_append, Option.mem_toList]
    exact or_assoc

/-- After any `calls`, the bits of the objects that were put on a list follow each other from the
    first bit on, as many for each as it has words. A field is noted exactly if its object is on the
    list and has it, and the list never lacks the bit. The offsets of an object are those noted of
    it, ascending; its flag tells whether there are any; and no call changes those of another
    object. -/
theorem listing_exact (hfresh : ∀ i, (objects i).bits? = none ∧ (objects i).hasPointers = false)
    (calls : List (ListCall ι)) (honce : (accepted calls).Nodup)
    (hroom : wordBytes * wordsOf objects (accepted calls) < addressLimit) :
    let s := afterCalls ⟨.empty, objects⟩ calls
    let order := accepted calls
    (s.list.sources.toList = order.map fun i => (objects i).source) ∧
    (∀ before i after, order = before ++ i :: after → (s.entries i).bits? =
      some ⟨wordsOf objects before, wordsOf objects before + ceilDiv (objects i).size wordBytes⟩) ∧
    s.list.totalBytes / wordBytes = wordsOf objects order ∧
    (∀ i field,
      ((∃ r, s.list.markField (s.entries i) field = .ok r) ↔
        i ∈ order ∧ ∃ n, (objects i).HasField field n) ∧
      ∀ f, s.list.markField (s.entries i) field ≠ .error (.fault f)) ∧
    (∀ i, (s.offsets i).Pairwise (· < ·) ∧
      (∀ n, n ∈ s.offsets i ↔ (i, n) ∈ notedBy ⟨.empty, objects⟩ calls) ∧
      ((s.entries i).hasPointers = true ↔ s.offsets i ≠ [])) ∧
    ∀ c, (accepted (calls ++ [c])).Nodup →
      wordBytes * wordsOf objects (accepted (calls ++ [c])) < addressLimit →
      ∀ i, i ≠ c.object → (s.call c).offsets i = s.offsets i := by
  intro s order
  obtain ⟨h, hnoted⟩ := (Filled.empty hfresh).afterCalls calls honce hroom
  rw [List.nil_append] at h
  have hnone : ∀ i, offsets ⟨.empty, objects⟩ i = [] := fun i => by
    rw [offsets, CopyList.pointerOffsets, (hfresh i).1]
  refine ⟨h.sources, h.bits, ?_,
    fun i field => ⟨h.markField_isOk_iff i field, h.markField_ne_fault i field⟩,
    fun i => ⟨CopyList.pairwise_pointerOffsets .., ?_, h.flag i⟩, fun c honce' hroom' i hi => ?_⟩
  · rw [h.total, Nat.mul_div_cancel_left _ (by decide)]
  · intro n
    rw [hnoted, hnone]
    simp
  · have hsplit : accepted (calls ++ [c]) = accepted calls ++ c.accepted?.toList := by
      rw [accepted, List.filterMap_append]
      exact congrArg _ ((accepted_cons c []).trans (List.append_nil _))
    rw [hsplit] at honce' hroom'
    exact offsets_ext fun n =>
      ((h.call c honce' hroom').2 i n).trans (or_iff_left fun hother => hi (object_of_noted? hother))

/-- Objects of two words that are not full, of five words, and of three bytes. -/
def oddObjects : Fin 3 → SourceEntry
  | 0 => .found 0x1000 .copy .other 12 false
  | 1 => .found 0x2000 .copy .other 40 false
  | 2 => .found 0x3000 .copy .other 3 false

/-- Fields that are noted, and some that are refused: of an object that is not on the list yet or never
    will be, across the end of an object, and not at a word. -/
def oddCalls : List (ListCall (Fin 3)) :=
  [.mark 1 0x2008, .accept 0, .mark 0 0x1000, .accept 1, .mark 1 0x2020, .mark 0 0x1008, .mark 1 0x2008,
    .mark 1 0x2004, .mark 2 0x3000]

/-- The object of five words has its bits after those of the other, and two offsets. -/
theorem listing_exact_odd :
    (∀ i, (oddObjects i).bits? = none ∧ (oddObjects i).hasPointers = false) ∧
      (accepted oddCalls).Nodup ∧ wordBytes * wordsOf oddObjects (accepted oddCalls) < addressLimit ∧
      ((afterCalls ⟨.empty, oddObjects⟩ oddCalls).entries 1).bits? = some ⟨2, 7⟩ ∧
      ∀ n, n ∈ (afterCalls ⟨.empty, oddObjects⟩ oddCalls).offsets 1 ↔ n = 8 ∨ n = 32 := by
  have hfresh : ∀ i, (oddObjects i).bits? = none ∧ (oddObjects i).hasPointers = false := by decide
  have honce : (accepted oddCalls).Nodup := by decide
  have hroom : wordBytes * wordsOf oddObjects (accepted oddCalls) < addressLimit := by decide
  obtain ⟨-, hbits, -, -, hoffsets, -⟩ := listing_exact hfresh oddCalls honce hroom
  have hnoted : notedBy ⟨.empty, oddObjects⟩ oddCalls = [(0, 0), (1, 32), (1, 8)] := by decide +kernel
  refine ⟨hfresh, honce, hroom, (hbits [0] 1 [] (by decide)).trans (by decide), fun n => ?_⟩
  rw [(hoffsets 1).2.1, hnoted]
  simp [or_comm]

end Listing

end SnapshotArchive
