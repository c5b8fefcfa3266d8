import Mathlib.Order.Bounds.Basic
import Mathlib.Tactic.Common
import SnapshotArchive.Proofs.RequestedRanges
import SnapshotArchive.Proofs.Spans

/-!
An arena by itself. Whatever is allocated, packed and begun on a fresh arena, in any order, its two
regions stay one after the other in the buffer, what is allocated lies in the current region above all
that was allocated before, and the region is packed at the least multiple of the alignment. This is so
for every alignment, also for those below a word, that sessions do not use.
-/

namespace SnapshotArchive

/-- A region `r` is packed at the least multiple of `2 ^ k` that is not below its top. -/
theorem Region.pack_eq {r : Region} {length k : Nat} (hdvd : 2 ^ k ∣ length) (hk : k ≤ 64)
    (hlength : length < addressLimit) (htop : r.top ≤ length) (hcut : r.Cut (2 ^ k)) :
    r.pack (2 ^ k) length =
      { r with top := roundUp r.top (2 ^ k), limit := roundUp r.top (2 ^ k), packed := true } := by
  unfold pack
  split
  · rename_i hpacked
    obtain ⟨hlimit, hmultiple⟩ := hcut hpacked
    rw [roundUp_of_dvd hmultiple]
    cases r
    simp_all
  · have hle : roundUp r.top (2 ^ k) ≤ length := (isLeast_roundUp r.top k).2 ⟨htop, hdvd⟩
    rw [alignUp?_eq_roundUp _ hk, if_pos (Nat.lt_of_le_of_lt hle hlength), Option.getD_some,
      Nat.min_eq_left hle]

/-- What may be called on an arena. -/
inductive ArenaCall where
  | allocate (bytes : Nat)
  | pack
  | startReadOnly
  deriving DecidableEq

namespace ArenaCall

/-- The arena `a` after a call, whether it was granted or refused. -/
def after (a : Arena) : ArenaCall → Arena
  | allocate n =>
    match a.allocate n with
    | .ok (_, a') => a'
    | .error _ => a
  | pack => a.pack
  | startReadOnly =>
    match a.startReadOnly with
    | .ok a' => a'
    | .error _ => a

/-- The block that a call on `a` answers. -/
def block? (a : Arena) : ArenaCall → Option Span
  | allocate n =>
    match a.allocate n with
    | .ok (offset, _) => some ⟨offset, offset + n⟩
    | .error _ => none
  | _ => none

/-- A call on `a` does not allocate from a packed region. -/
def Permitted (a : Arena) : ArenaCall → Prop
  | allocate _ => a.currentRegion.packed = false
  | _ => True

end ArenaCall

namespace Arena

variable {a a' : Arena} {length k : Nat} {blocks : List Span}

/-- The arena `a` after some `calls`. -/
def afterCalls (a : Arena) (calls : List ArenaCall) : Arena := calls.foldl (fun a c => c.after a) a

/-- The blocks that some calls on `a` answer. -/
def blocksOf (a : Arena) : List ArenaCall → List Span
  | [] => []
  | c :: calls => (c.block? a).toList ++ (c.after a).blocksOf calls

/-- No call in turn allocates from a region that is packed by then. -/
def Permits (a : Arena) : List ArenaCall → Prop
  | [] => True
  | c :: calls => c.Permitted a ∧ (c.after a).Permits calls

/-- The regions of `a` lie one after the other from the bottom of a buffer of `length` bytes. -/
structure Ordered (a : Arena) (length : Nat) : Prop where
  bottom : a.mutable.base = 0
  mutable_top : a.mutable.base ≤ a.mutable.top
  mutable_limit : a.mutable.top ≤ a.mutable.limit
  mutable_length : a.mutable.limit ≤ length
  apart : a.mutable.limit ≤ a.readOnly.base
  readOnly_top : a.readOnly.base ≤ a.readOnly.top
  readOnly_limit : a.readOnly.top ≤ a.readOnly.limit
  readOnly_length : a.readOnly.limit ≤ length

namespace Ordered

theorem region (h : a.Ordered length) (kind : RegionKind) :
    (a.region kind).base ≤ (a.region kind).top ∧ (a.region kind).top ≤ (a.region kind).limit ∧
      (a.region kind).limit ≤ length := by
  cases kind with
  | mutable => exact ⟨h.mutable_top, h.mutable_limit, h.mutable_length⟩
  | readOnly => exact ⟨h.readOnly_top, h.readOnly_limit, h.readOnly_length⟩

/-- The current region may become `r` within the buffer, as long as the mutable one stays below the
    other. -/
theorem setCurrent (h : a.Ordered length) {r : Region} (hbase : r.base = a.currentRegion.base)
    (htop : r.base ≤ r.top) (hlimit : r.top ≤ r.limit) (hlength : r.limit ≤ length)
    (hapart : a.current = .mutable → r.limit ≤ a.readOnly.base) : (a.setCurrent r).Ordered length := by
  unfold currentRegion at hbase
  unfold Arena.setCurrent
  cases hc : a.current with
  | mutable =>
    rw [hc] at hbase
    exact { h with
      bottom := hbase.trans h.bottom
      mutable_top := htop
      mutable_limit := hlimit
      mutable_length := hlength
      apart := hapart hc }
  | readOnly =>
    rw [hc] at hbase
    exact { h with
      apart := Nat.le_trans h.apart (Nat.le_of_eq hbase.symm)
      readOnly_top := htop
      readOnly_limit := hlimit
      readOnly_length := hlength }

end Ordered

/-- An arena `a` over a buffer of `length` bytes on which calls answered `blocks`. -/
structure Grown (length k : Nat) (blocks : List Span) (a : Arena) : Prop where
  length_eq : a.length = length
  alignment_eq : a.alignment = 2 ^ k
  ordered : a.Ordered length
  padding : bottomPadding ≤ a.top
  words : 8 ∣ a.top
  cut : a.currentRegion.Cut (2 ^ k)
  idle : a.current = .mutable → a.readOnly.base = length
  below : ∀ b ∈ blocks, b.stop ≤ a.top

/-- An allocation of `n` bytes takes whole words from the top of the current region, and is refused
    where the region or the address space has too few. -/
theorem allocate_eq (a : Arena) (n : Nat) :
    a.allocate n =
      if roundUp n objectAlign < addressLimit ∧ roundUp n objectAlign ≤ a.currentRegion.available then
        .ok (a.top, a.advance (a.top + roundUp n objectAlign))
      else .error (.outOfSpace a.current n a.currentRegion.available) := by
  have hup : alignUp? n objectAlign =
      if roundUp n objectAlign < addressLimit then some (roundUp n objectAlign) else none :=
    alignUp?_words n
  unfold allocate
  dsimp only
  by_cases hlt : roundUp n objectAlign < addressLimit
  · rw [hup, if_pos hlt]
    by_cases hle : roundUp n objectAlign ≤ a.currentRegion.available
    · rw [if_pos ⟨hlt, hle⟩]
      dsimp only
      rw [if_pos hle]
      rfl
    · rw [if_neg (fun h => hle h.2)]
      dsimp only
      rw [if_neg hle]
  · rw [hup, if_neg hlt, if_neg (fun h => hlt h.1)]

/-- An allocation is refused exactly if `roundUp n objectAlign` is no byte count or does not fit. -/
theorem allocate_isError_iff {n : Nat} : (∃ e, a.allocate n = .error e) ↔
    addressLimit ≤ roundUp n objectAlign ∨ a.currentRegion.limit - a.top < roundUp n objectAlign := by
  rw [allocate_eq]
  change _ ↔ _ ∨ a.currentRegion.available < _
  split_ifs with hroom
  · simp [hroom.1, hroom.2]
  · simpa [Nat.not_lt, imp_iff_not_or] using hroom

/-- A fresh arena has its padding taken, and may be filled up to `length`. -/
theorem start_eq {length alignment : Nat} (h : start length alignment = .ok a) :
    bottomPadding ≤ length ∧ a = (bare length alignment).advance bottomPadding := by
  unfold start at h
  rw [allocate_eq] at h
  have hpad : roundUp bottomPadding objectAlign = bottomPadding := by decide
  rw [hpad] at h
  split at h
  · rename_i hroom
    cases h
    exact ⟨hroom.2, rfl⟩
  · cases h

namespace Grown

theorem ofStart (h : start length (2 ^ k) = .ok a) : Grown length k [] a := by
  obtain ⟨hroom, rfl⟩ := start_eq h
  exact {
    length_eq := rfl
    alignment_eq := rfl
    ordered := ⟨rfl, Nat.zero_le _, hroom, Nat.le_refl _, Nat.le_refl _, Nat.le_refl _, Nat.le_refl _,
      Nat.le_refl _⟩
    padding := Nat.le_refl _
    words := ⟨2, rfl⟩
    cut := nofun
    idle := fun _ => rfl
    below := nofun }

theorem top_le_limit (h : Grown length k blocks a) : a.top ≤ a.currentRegion.limit :=
  (h.ordered.region a.current).2.1

theorem limit_le_length (h : Grown length k blocks a) : a.currentRegion.limit ≤ length :=
  (h.ordered.region a.current).2.2

/-- The current region may become `r` if its top is not lowered, and `more` blocks lie below
    that. -/
theorem setCurrent (h : Grown length k blocks a) {r : Region} {more : List Span}
    (hbase : r.base = a.currentRegion.base) (htop : a.top ≤ r.top) (hlimit : r.top ≤ r.limit)
    (hlength : r.limit ≤ length) (hwords : 8 ∣ r.top) (hcut : r.Cut (2 ^ k))
    (hmore : ∀ b ∈ more, b.stop ≤ r.top) : Grown length k (blocks ++ more) (a.setCurrent r) := by
  have hr : (a.setCurrent r).currentRegion = r := currentRegion_setCurrent a r
  have htop' : (a.setCurrent r).top = r.top := congrArg Region.top hr
  have hlow : a.currentRegion.base ≤ a.top := (h.ordered.region a.current).1
  exact {
    length_eq := (length_setCurrent ..).trans h.length_eq
    alignment_eq := (alignment_setCurrent ..).trans h.alignment_eq
    ordered := h.ordered.setCurrent hbase (by omega) hlimit hlength fun hc => by rw [h.idle hc]; exact hlength
    padding := by
      rw [htop']
      exact Nat.le_trans h.padding htop
    words := htop' ▸ hwords
    cut := hr.symm ▸ hcut
    idle := fun hc => by
      rw [current_setCurrent] at hc
      rw [← h.idle hc]
      unfold Arena.setCurrent
      rw [hc]
    below := fun b hb => by
      rw [htop']
      rcases List.mem_append.1 hb with hb | hb
      · exact Nat.le_trans (h.below b hb) htop
      · exact hmore b hb }

/-- A block of `n` bytes lies at `a.top`, in the current region, and above all of `blocks`. -/
theorem allocate (h : Grown length k blocks a) {n offset : Nat} (hopen : a.currentRegion.packed = false)
    (he : a.allocate n = .ok (offset, a')) :
    offset = a.top ∧ offset + n ≤ a.currentRegion.limit ∧ offset + n ≤ a'.top ∧
      Grown length k (blocks ++ [⟨offset, offset + n⟩]) a' := by
  rw [allocate_eq] at he
  split at he
  · rename_i hroom
    cases he
    have hle : n ≤ roundUp n objectAlign := le_roundUp n 3
    have hword : 8 ∣ roundUp n objectAlign := (isLeast_roundUp n 3).1.2
    have hlimit := h.top_le_limit
    have hfits := hroom.2
    unfold Region.available at hfits
    change _ ≤ a.currentRegion.limit - a.top at hfits
    refine ⟨rfl, by omega, by rw [top_advance]; omega, ?_⟩
    refine h.setCurrent rfl (by dsimp only; omega) (by dsimp only; omega) h.limit_le_length
      ((Nat.dvd_add_right h.words).2 hword) (fun hpacked => ?_) fun b hb => ?_
    · exact absurd (hopen.symm.trans hpacked) (by decide)
    · obtain rfl := List.mem_singleton.1 hb
      dsimp only
      omega
  · cases he

/-- The current region is packed at the least multiple of `2 ^ k`, which the buffer has room for. -/
theorem pack_eq (h : Grown length k blocks a) (hdvd : 2 ^ k ∣ length) (hlength : length < addressLimit) :
    a.pack = a.setCurrent { a.currentRegion with
      top := roundUp a.top (2 ^ k), limit := roundUp a.top (2 ^ k), packed := true } := by
  have htop : a.top ≤ length := Nat.le_trans h.top_le_limit h.limit_le_length
  have hpos : 0 < length := Nat.lt_of_lt_of_le (Nat.lt_of_lt_of_le (by decide) h.padding) htop
  have hk : k ≤ 64 := by
    by_contra hlarge
    have hpow : 2 ^ 64 ≤ 2 ^ k := Nat.pow_le_pow_right (by decide) (by omega)
    have := Nat.le_of_dvd hpos hdvd
    unfold addressLimit at hlength
    omega
  unfold Arena.pack
  rw [h.alignment_eq, h.length_eq, Region.pack_eq hdvd hk hlength htop h.cut]
  rfl

theorem top_pack (h : Grown length k blocks a) (hdvd : 2 ^ k ∣ length) (hlength : length < addressLimit) :
    a.pack.top = roundUp a.top (2 ^ k) := by
  rw [h.pack_eq hdvd hlength, top, currentRegion_setCurrent]

theorem pack (h : Grown length k blocks a) (hdvd : 2 ^ k ∣ length) (hlength : length < addressLimit) :
    Grown length k blocks a.pack := by
  have hlimit := h.limit_le_length
  have hle : roundUp a.top (2 ^ k) ≤ length :=
    (isLeast_roundUp a.top k).2 ⟨Nat.le_trans h.top_le_limit hlimit, hdvd⟩
  rw [h.pack_eq hdvd hlength, ← List.append_nil blocks]
  exact h.setCurrent rfl (le_roundUp a.top k) (Nat.le_refl _) hle (word_dvd_roundUp h.words k)
    (fun _ => ⟨rfl, (isLeast_roundUp a.top k).1.2⟩) nofun

/-- The read-only region begins where the mutable one is packed. -/
theorem startReadOnly (h : Grown length k blocks a) (hdvd : 2 ^ k ∣ length)
    (hlength : length < addressLimit) (he : a.startReadOnly = .ok a') :
    a'.current = .readOnly ∧ a'.readOnly.base = a'.mutable.top ∧ a'.mutable.top = a'.mutable.limit ∧
      Grown length k blocks a' := by
  unfold Arena.startReadOnly at he
  split at he
  · rename_i hc
    have hp := h.pack hdvd hlength
    have hcurrent : a.pack.current = .mutable := (current_pack a).trans hc
    have htop : a.pack.top = a.pack.mutable.top := by rw [top, currentRegion, hcurrent]; rfl
    have hpacked : a.pack.mutable.packed = true := by
      rw [show a.pack.mutable = a.pack.region .mutable from rfl, region_pack, if_pos hc]
      exact Region.packed_pack ..
    have hcut : a.pack.mutable.Cut (2 ^ k) := by
      have := hp.cut
      rwa [currentRegion, hcurrent] at this
    obtain ⟨hlimit, -⟩ := hcut hpacked
    have hfits := hp.ordered.mutable_length
    cases he
    rw [h.length_eq]
    refine ⟨rfl, hlimit, hlimit.symm, ?_⟩
    exact {
      length_eq := hp.length_eq
      alignment_eq := hp.alignment_eq
      ordered := { hp.ordered with
        apart := Nat.le_refl _
        readOnly_top := Nat.le_refl _
        readOnly_limit := hfits
        readOnly_length := Nat.le_refl _ }
      padding := by
        change bottomPadding ≤ a.pack.mutable.limit
        rw [hlimit, ← htop]
        exact hp.padding
      words := by
        change 8 ∣ a.pack.mutable.limit
        rw [hlimit, ← htop]
        exact hp.words
      cut := nofun
      idle := nofun
      below := fun b hb => by
        change b.stop ≤ a.pack.mutable.limit
        rw [hlimit, ← htop]
        exact hp.below b hb }
  · cases he

/-- Every permitted call `c` keeps the regions in order, and what it answers lies below the top. -/
theorem after (h : Grown length k blocks a) (hdvd : 2 ^ k ∣ length) (hlength : length < addressLimit)
    (c : ArenaCall) (hc : c.Permitted a) : Grown length k (blocks ++ (c.block? a).toList) (c.after a) := by
  have hsame : Grown length k (blocks ++ []) a := (List.append_nil blocks).symm ▸ h
  cases c with
  | allocate n =>
    cases he : a.allocate n with
    | error e =>
      simp only [ArenaCall.after, ArenaCall.block?, he]
      exact hsame
    | ok p =>
      simp only [ArenaCall.after, ArenaCall.block?, he]
      exact (h.allocate hc he).2.2.2
  | pack =>
    simp only [ArenaCall.after, ArenaCall.block?]
    exact (List.append_nil blocks).symm ▸ h.pack hdvd hlength
  | startReadOnly =>
    cases he : a.startReadOnly with
    | error v =>
      simp only [ArenaCall.after, ArenaCall.block?, he]
      exact hsame
    | ok a' =>
      simp only [ArenaCall.after, ArenaCall.block?, he]
      exact (List.append_nil blocks).symm ▸ (h.startReadOnly hdvd hlength he).2.2.2

theorem afterCalls (h : Grown length k blocks a) (hdvd : 2 ^ k ∣ length) (hlength : length < addressLimit)
    (calls : List ArenaCall) (hcalls : a.Permits calls) :
    Grown length k (blocks ++ a.blocksOf calls) (a.afterCalls calls) := by
  induction calls generalizing a blocks with
  | nil => simpa [blocksOf, Arena.afterCalls] using h
  | cons c rest ih =>
    rw [blocksOf, ← List.append_assoc]
    exact ih (h.after hdvd hlength c hcalls.1) hcalls.2

end Grown

theorem startReadOnly_isOk_iff : (∃ a', a.startReadOnly = .ok a') ↔ ¬ a.current = .readOnly := by
  unfold startReadOnly
  cases a.current <;> simp

/-- The read-only region is the current one exactly once it is begun. -/
theorem current_afterCalls (a : Arena) (calls : List ArenaCall) :
    (a.afterCalls calls).current = .readOnly ↔ a.current = .readOnly ∨ .startReadOnly ∈ calls := by
  induction calls generalizing a with
  | nil => simp [afterCalls]
  | cons c rest ih =>
    have hstep : (c.after a).current = .readOnly ↔ a.current = .readOnly ∨ c = .startReadOnly := by
      cases c with
      | allocate n =>
        simp only [ArenaCall.after, allocate_eq, reduceCtorEq, or_false]
        split_ifs <;> simp
      | pack => simp [ArenaCall.after]
      | startReadOnly => cases h : a.current <;> simp [ArenaCall.after, startReadOnly, h]
    rw [List.mem_cons, ← or_assoc, eq_comm (a := ArenaCall.startReadOnly), ← hstep]
    exact ih _

theorem pack_pack (a : Arena) : a.pack.pack = a.pack := by
  have hpacked : (a.currentRegion.pack a.alignment a.length).packed = true := Region.packed_pack ..
  have hcurrent : a.pack.currentRegion = a.currentRegion.pack a.alignment a.length :=
    currentRegion_setCurrent ..
  rw [pack, hcurrent, Region.pack, if_pos hpacked]
  unfold pack setCurrent
  cases a.current <;> rfl

/-- After any permitted `calls` on a fresh arena `a₀`, the regions lie in order in the buffer. An
    allocation is refused exactly if its bytes, in whole words, do not fit; one that is granted lies
    in the current region, at a multiple of the object alignment, above the bottom padding and all
    blocks before. Packing raises the top to the least multiple of `2 ^ k`. The read-only region is
    begun once, where the mutable one is packed. -/
theorem allocation_exact {length k : Nat} {a₀ : Arena} (hdvd : 2 ^ k ∣ length)
    (hlength : length < addressLimit) (hstart : start length (2 ^ k) = .ok a₀) (calls : List ArenaCall)
    (hcalls : a₀.Permits calls) :
    let a := a₀.afterCalls calls
    a.Ordered length ∧
    (a.currentRegion.packed = false → ∀ n,
      ((∃ e, a.allocate n = .error e) ↔
        addressLimit ≤ roundUp n objectAlign ∨ a.currentRegion.limit - a.top < roundUp n objectAlign) ∧
      (∀ e, a.allocate n = .error e → (ArenaCall.allocate n).after a = a) ∧
      ∀ offset a', a.allocate n = .ok (offset, a') →
        objectAlign ∣ offset ∧ bottomPadding ≤ offset ∧ a.currentRegion.base ≤ offset ∧
          offset + n ≤ a.currentRegion.limit ∧ offset + n ≤ a'.top ∧
          ∀ b ∈ a₀.blocksOf calls, b.stop ≤ offset) ∧
    (a.pack.pack = a.pack ∧ IsLeast {t | a.top ≤ t ∧ 2 ^ k ∣ t} a.pack.top ∧ a.pack.top ≤ length) ∧
    ((∃ a', a.startReadOnly = .ok a') ↔ .startReadOnly ∉ calls) ∧
    (∀ v, a.startReadOnly = .error v → ArenaCall.startReadOnly.after a = a) ∧
    ∀ a', a.startReadOnly = .ok a' → a'.current = .readOnly ∧ a'.readOnly.base = a'.mutable.top ∧
      a'.mutable.top = a'.mutable.limit := by
  intro a
  have h : Grown length k (a₀.blocksOf calls) a :=
    (Grown.ofStart hstart).afterCalls hdvd hlength calls hcalls
  have hcurrent₀ : a₀.current = .mutable := by
    obtain ⟨-, rfl⟩ := start_eq hstart
    rfl
  refine ⟨h.ordered, fun hopen n =>
    ⟨allocate_isError_iff, fun e he => by simp only [ArenaCall.after, he], ?_⟩,
    ⟨pack_pack a, ?_, ?_⟩, ?_, fun v he => by simp only [ArenaCall.after, he], fun a' he => ?_⟩
  · intro offset a' he
    obtain ⟨rfl, hlimit, htop, -⟩ := h.allocate hopen he
    exact ⟨h.words, h.padding, (h.ordered.region a.current).1, hlimit, htop, h.below⟩
  · rw [h.top_pack hdvd hlength]
    exact isLeast_roundUp a.top k
  · have hp := h.pack hdvd hlength
    exact Nat.le_trans hp.top_le_limit hp.limit_le_length
  · have hbegun := current_afterCalls a₀ calls
    rw [hcurrent₀] at hbegun
    rw [startReadOnly_isOk_iff, hbegun]
    simp
  · obtain ⟨hcurrent, hbase, htop, -⟩ := h.startReadOnly hdvd hlength he
    exact ⟨hcurrent, hbase, htop⟩

/-- A buffer of eleven half words, whose regions end at half words. -/
def halfWordArena : Arena := (bare 44 4).advance bottomPadding

/-- Blocks in both regions, and calls that are refused: more bytes than there are, and a second begin. -/
def halfWordCalls : List ArenaCall :=
  [.allocate 5, .allocate 100, .pack, .startReadOnly, .allocate 3, .startReadOnly]

/-- The read-only region of `halfWordArena` has a word and a half left: nine bytes are refused, a
    word lies above all else. -/
theorem allocation_exact_half_words :
    start 44 (2 ^ 2) = .ok halfWordArena ∧ halfWordArena.Permits halfWordCalls ∧
      (∃ e, (halfWordArena.afterCalls halfWordCalls).allocate 9 = .error e) ∧
      ∀ offset a', (halfWordArena.afterCalls halfWordCalls).allocate 8 = .ok (offset, a') →
        ∀ b ∈ [⟨16, 21⟩, ⟨24, 27⟩], Span.stop b ≤ offset := by
  have hstart : start 44 (2 ^ 2) = .ok halfWordArena := rfl
  have hpermits : halfWordArena.Permits halfWordCalls := ⟨rfl, rfl, trivial, trivial, rfl, trivial, trivial⟩
  obtain ⟨-, halloc, -⟩ := allocation_exact (by decide : 2 ^ 2 ∣ 44) (by decide) hstart halfWordCalls hpermits
  refine ⟨hstart, hpermits, (halloc rfl 9).1.2 (.inr (by decide)), fun offset a' he => ?_⟩
  exact ((halloc rfl 8).2.2 offset a' he).2.2.2.2.2

end Arena

end SnapshotArchive
