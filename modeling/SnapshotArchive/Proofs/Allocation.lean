import Mathlib.Tactic.Common
import SnapshotArchive.Estimate
import SnapshotArchive.Proofs.Rounding

/-!
Allocation stays in its region. The regions of an arena lie one after the other, and the current one
grows at its top only; so whatever lies below the top of an arena is never handed out again. An estimate
counts of each object what its allocation takes.
-/

namespace SnapshotArchive

/-- What an allocation of `bytes` bytes takes: as many, rounded up to `objectAlign`. -/
def allocatedBytes (bytes : Nat) : Nat := (alignUp? bytes objectAlign).getD maxBytes

namespace Arena

variable {a a' : Arena}

/-- The arena `a` once the current region ends at `t`. -/
def advance (a : Arena) (t : Nat) : Arena := a.setCurrent { a.currentRegion with top := t }

theorem currentRegion_setCurrent (a : Arena) (r : Region) : (a.setCurrent r).currentRegion = r := by
  unfold currentRegion
  rw [current_setCurrent, region_setCurrent, if_pos rfl]

theorem length_setCurrent (a : Arena) (r : Region) : (a.setCurrent r).length = a.length := by
  unfold setCurrent
  cases a.current <;> rfl

theorem alignment_setCurrent (a : Arena) (r : Region) : (a.setCurrent r).alignment = a.alignment := by
  unfold setCurrent
  cases a.current <;> rfl

theorem currentRegion_advance (a : Arena) (t : Nat) :
    (a.advance t).currentRegion = { a.currentRegion with top := t } := currentRegion_setCurrent ..

@[simp] theorem top_advance (a : Arena) (t : Nat) : (a.advance t).top = t := by
  unfold top
  rw [currentRegion_advance]

@[simp] theorem current_advance (a : Arena) (t : Nat) : (a.advance t).current = a.current :=
  current_setCurrent ..

@[simp] theorem length_advance (a : Arena) (t : Nat) : (a.advance t).length = a.length :=
  length_setCurrent ..

@[simp] theorem alignment_advance (a : Arena) (t : Nat) : (a.advance t).alignment = a.alignment :=
  alignment_setCurrent ..

theorem advance_advance (a : Arena) (t u : Nat) : (a.advance t).advance u = a.advance u := by
  unfold advance currentRegion setCurrent
  cases a.current <;> simp [region]

theorem advance_top (a : Arena) : a.advance a.top = a := by
  unfold advance top setCurrent currentRegion
  cases h : a.current <;> simp [region, ← h]

/-- A change `f` of the current region leaves the other one as it is. -/
theorem region_changeCurrent (a : Arena) (f : Region → Region) (kind : RegionKind) :
    (a.setCurrent (f a.currentRegion)).region kind =
      if a.current = kind then f (a.region kind) else a.region kind := by
  rw [region_setCurrent]
  split
  · rename_i hkind
    rw [← hkind]
    rfl
  · rfl

/-- To `advance` an arena is to move the top of its current region to `t`. -/
theorem region_advance (a : Arena) (t : Nat) (kind : RegionKind) :
    (a.advance t).region kind = if a.current = kind then { a.region kind with top := t } else a.region kind :=
  a.region_changeCurrent (fun r => { r with top := t }) kind

theorem region_pack (a : Arena) (kind : RegionKind) :
    a.pack.region kind =
      if a.current = kind then (a.region kind).pack a.alignment a.length else a.region kind :=
  a.region_changeCurrent (·.pack a.alignment a.length) kind

@[simp] theorem current_pack (a : Arena) : a.pack.current = a.current := current_setCurrent ..

@[simp] theorem alignment_pack (a : Arena) : a.pack.alignment = a.alignment := alignment_setCurrent ..

theorem base_advance (a : Arena) (t : Nat) (kind : RegionKind) :
    ((a.advance t).region kind).base = (a.region kind).base := by
  rw [region_advance]
  split <;> rfl

theorem top_le_advance {t : Nat} (h : a.top ≤ t) (kind : RegionKind) :
    (a.region kind).top ≤ ((a.advance t).region kind).top := by
  rw [region_advance]
  split
  · rename_i hkind
    rw [← hkind]
    exact h
  · exact Nat.le_refl _

/-- The regions lie one after the other in the buffer, above the bottom padding, in whole words. -/
structure Sound (a : Arena) : Prop where
  alignment : ∃ k, 3 ≤ k ∧ a.alignment = 2 ^ k
  base : a.mutable.base = 0
  padding : bottomPadding ≤ a.mutable.top
  mutable_top : a.mutable.top ≤ a.mutable.limit
  mutable_limit : a.mutable.limit ≤ a.readOnly.base
  readOnly_base : a.readOnly.base ≤ a.readOnly.top
  readOnly_top : a.readOnly.top ≤ a.readOnly.limit
  readOnly_limit : a.readOnly.limit ≤ a.length
  unpacked : a.current = .mutable → a.mutable.packed = false
  adjacent : a.current = .readOnly → a.readOnly.base = a.mutable.top
  mutable_words : 8 ∣ a.mutable.top ∧ 8 ∣ a.mutable.limit
  readOnly_words : 8 ∣ a.readOnly.top ∧ 8 ∣ a.readOnly.limit
  words : 8 ∣ a.length

namespace Sound

theorem dvd_top (h : a.Sound) : 8 ∣ a.top := by
  unfold top currentRegion region
  split
  · exact h.mutable_words.1
  · exact h.readOnly_words.1

theorem top_le_limit (h : a.Sound) : a.top ≤ a.currentRegion.limit := by
  unfold top currentRegion region
  split
  · exact h.mutable_top
  · exact h.readOnly_top

theorem limit_le_length (h : a.Sound) : a.currentRegion.limit ≤ a.length := by
  have := h.mutable_limit
  have := h.readOnly_base
  have := h.readOnly_top
  have := h.readOnly_limit
  unfold currentRegion region
  split <;> omega

theorem top_le_length (h : a.Sound) : a.top ≤ a.length :=
  Nat.le_trans h.top_le_limit h.limit_le_length

theorem padding_le_top (h : a.Sound) : bottomPadding ≤ a.top := by
  have := h.padding
  have := h.mutable_top
  have := h.mutable_limit
  have := h.readOnly_base
  unfold top currentRegion region
  split <;> omega

/-- Both regions end at `a.top` or below it, once the read-only one is current. -/
theorem region_top_le (h : a.Sound) (hcurrent : a.current = .readOnly) (kind : RegionKind) :
    (a.region kind).top ≤ a.top := by
  have := h.mutable_top
  have := h.mutable_limit
  have := h.readOnly_base
  unfold top currentRegion
  rw [hcurrent]
  cases kind <;> simp only [region] <;> omega

/-- The current region may grow up to its limit: to any `t` between `a.top` and there, in whole
    words. -/
theorem advance (h : a.Sound) {t : Nat} (hlow : a.top ≤ t) (hhigh : t ≤ a.currentRegion.limit)
    (hdvd : 8 ∣ t) : (a.advance t).Sound := by
  unfold top currentRegion at hlow
  unfold currentRegion at hhigh
  unfold Arena.advance setCurrent currentRegion
  cases hc : a.current with
  | mutable =>
    rw [hc] at hlow hhigh
    exact { h with
      padding := Nat.le_trans h.padding hlow
      mutable_top := hhigh
      unpacked := fun _ => h.unpacked hc
      adjacent := fun hr => absurd (show RegionKind.mutable = .readOnly from hr) (by decide)
      mutable_words := ⟨hdvd, h.mutable_words.2⟩ }
  | readOnly =>
    rw [hc] at hlow hhigh
    exact { h with
      readOnly_base := Nat.le_trans h.readOnly_base hlow
      readOnly_top := hhigh
      unpacked := fun hr => absurd (show RegionKind.readOnly = .mutable from hr) (by decide)
      adjacent := fun _ => h.adjacent hc
      readOnly_words := ⟨hdvd, h.readOnly_words.2⟩ }

end Sound

/-- What an allocation of `n` bytes changes: `a.top` moves by `allocatedBytes n`, and the block is
    the old top. -/
theorem allocate_eq_ok {n offset : Nat} (h : a.Sound) (he : a.allocate n = .ok (offset, a')) :
    offset = a.top ∧ n ≤ allocatedBytes n ∧ a.top + allocatedBytes n ≤ a.currentRegion.limit ∧
      8 ∣ a.top + allocatedBytes n ∧ a' = a.advance (a.top + allocatedBytes n) := by
  unfold allocate at he
  dsimp only at he
  split at he
  · rename_i size hsize
    obtain ⟨hle, -, hdvd⟩ := alignUp?_bounds (k := 3) hsize
    have hlimit := h.top_le_limit
    have htaken : allocatedBytes n = size := by
      unfold allocatedBytes
      rw [hsize, Option.getD_some]
    rw [htaken]
    split at he
    · rename_i havailable
      cases he
      unfold Region.available at havailable
      unfold top at hlimit ⊢
      exact ⟨rfl, hle, by omega, (Nat.dvd_add_right h.dvd_top).2 hdvd, rfl⟩
    · cases he
  · cases he

/-- An allocation fails only where `allocatedBytes n` bytes do not fit below the limit. -/
theorem allocate_full {n : Nat} {e : BuildError} (h : a.Sound) (hlength : a.length < addressLimit)
    (he : a.allocate n = .error e) : a.currentRegion.limit < a.top + allocatedBytes n := by
  have hlimit := h.limit_le_length
  have hpadding := h.padding_le_top
  unfold allocate at he
  unfold allocatedBytes
  dsimp only at he
  split at he
  · rename_i size hsize
    rw [hsize, Option.getD_some]
    split at he
    · cases he
    · rename_i hfull
      unfold Region.available at hfull
      unfold top at *
      omega
  · rename_i hsize
    rw [hsize, Option.getD_none]
    unfold maxBytes bottomPadding at *
    omega

end Arena

namespace Region

/-- A region ends at its top once it is packed. -/
theorem limit_pack (r : Region) {alignment length : Nat} (h : r.packed = false) :
    (r.pack alignment length).limit = (r.pack alignment length).top := by
  unfold pack
  rw [h]
  rfl

/-- Packing an open region raises its top by less than `2 ^ k`, to a multiple or to `length`, and
    ends the region there. -/
theorem pack_open (r : Region) (k length : Nat) (hopen : r.packed = false) :
    ∃ t, r.pack (2 ^ k) length = { r with top := t, limit := t, packed := true } ∧
      (r.top ≤ length → r.top ≤ t) ∧ t ≤ length ∧ (∀ d, d ∣ 2 ^ k → d ∣ length → d ∣ t) ∧
      (length < addressLimit → t < r.top + 2 ^ k) := by
  cases h : alignUp? r.top (2 ^ k) with
  | none =>
    -- the top is so near the last address that the whole buffer ends within the alignment
    have hnear := alignUp?_eq_none.1 h
    have hpos := Nat.two_pow_pos k
    refine ⟨length, ?_, id, Nat.le_refl _, fun _ _ hlength => hlength, fun hlength => by omega⟩
    rw [pack, hopen, if_neg Bool.false_ne_true, h, Option.getD_none, Nat.min_self]
  | some t =>
    obtain ⟨hle, hlt, hdvd⟩ := alignUp?_bounds h
    refine ⟨min t length, ?_, fun htop => Nat.le_min.2 ⟨hle, htop⟩, Nat.min_le_right .., ?_,
      fun _ => Nat.lt_of_le_of_lt (Nat.min_le_left ..) hlt⟩
    · rw [pack, hopen, if_neg Bool.false_ne_true, h, Option.getD_some]
    · intro d hd hlength
      rcases Nat.le_total t length with hcase | hcase
      · rw [Nat.min_eq_left hcase]
        exact Nat.dvd_trans hd hdvd
      · rw [Nat.min_eq_right hcase]
        exact hlength

/-- Packing moves the top of `r` up, to a multiple of `2 ^ k` or to `length`, and no base. -/
theorem pack_bounds (r : Region) {k length : Nat} (hk : 3 ≤ k) (htop : r.top ≤ r.limit)
    (hlimit : r.limit ≤ length) (hdvd : 8 ∣ r.top) (hend : 8 ∣ r.limit) (hlength : 8 ∣ length) :
    (r.pack (2 ^ k) length).base = r.base ∧ r.top ≤ (r.pack (2 ^ k) length).top ∧
      (r.pack (2 ^ k) length).top ≤ (r.pack (2 ^ k) length).limit ∧
      (r.pack (2 ^ k) length).limit ≤ length ∧
      8 ∣ (r.pack (2 ^ k) length).top ∧ 8 ∣ (r.pack (2 ^ k) length).limit := by
  cases hpacked : r.packed with
  | true =>
    rw [pack, if_pos hpacked]
    exact ⟨rfl, Nat.le_refl _, htop, hlimit, hdvd, hend⟩
  | false =>
    obtain ⟨t, hpack, hle, hlt, hwords, -⟩ := r.pack_open k length hpacked
    have hword : 8 ∣ t := hwords 8 (Nat.pow_dvd_pow 2 hk) hlength
    rw [hpack]
    exact ⟨rfl, hle (Nat.le_trans htop hlimit), Nat.le_refl _, hlt, hword, hword⟩

/-- Packing wastes at least a word less than `2 ^ k` bytes. -/
theorem pack_top (r : Region) {k length : Nat} (hk : 3 ≤ k) (hopen : r.packed = false) (hdvd : 8 ∣ r.top)
    (hlength : 8 ∣ length) (hlimit : length < addressLimit) :
    (r.pack (2 ^ k) length).top + wordBytes ≤ r.top + 2 ^ k := by
  have hpow : 8 ∣ 2 ^ k := Nat.pow_dvd_pow 2 hk
  obtain ⟨t, hpack, -, -, hwords, hlt⟩ := r.pack_open k length hopen
  have hword := hwords 8 hpow hlength
  have hbelow := hlt hlimit
  rw [hpack]
  unfold wordBytes
  dsimp only
  omega

end Region

namespace Arena

variable {a a' : Arena}

/-- A fresh arena of `length` bytes, with its padding taken. -/
theorem start_eq_ok {length k : Nat} (hk : 3 ≤ k) (hlength : 8 ∣ length)
    (h : start length (2 ^ k) = .ok a) :
    a.Sound ∧ a.length = length ∧ a.alignment = 2 ^ k ∧ a.current = .mutable := by
  unfold start allocate bare currentRegion region Region.available Region.start setCurrent at h
  simp only [Nat.sub_zero, Nat.zero_add] at h
  have hpad : alignUp? bottomPadding objectAlign = some bottomPadding := by decide
  rw [hpad] at h
  dsimp only at h
  split at h
  · rename_i hfits
    cases h
    refine ⟨⟨⟨k, hk, rfl⟩, rfl, Nat.le_refl _, hfits, Nat.le_refl _, Nat.le_refl _, Nat.le_refl _,
      Nat.le_refl _, fun _ => rfl, nofun, ⟨⟨2, rfl⟩, hlength⟩, ⟨hlength, hlength⟩, hlength⟩, rfl, rfl, rfl⟩
  · cases h

/-- A fresh arena may grow from `bottomPadding` to `length`. -/
theorem start_room {length alignment : Nat} (h : start length alignment = .ok a) :
    a.top = bottomPadding ∧ a.currentRegion.limit = length ∧ a.alignment = alignment := by
  unfold start allocate bare currentRegion region Region.available Region.start setCurrent at h
  have hpad : alignUp? bottomPadding objectAlign = some bottomPadding := by decide
  rw [hpad] at h
  dsimp only at h
  split at h <;> cases h
  exact ⟨Nat.zero_add _, rfl, rfl⟩

/-- A fresh arena has no packed region. -/
theorem start_unpacked {length alignment : Nat} (h : start length alignment = .ok a) (kind : RegionKind) :
    (a.region kind).packed = false := by
  unfold start allocate at h
  dsimp only at h
  split at h
  · split at h <;> cases h
    rw [region_changeCurrent (bare length alignment) fun r => { r with top := r.top + _ }]
    cases kind <;> rfl
  · cases h

/-- The read-only region of `a'` starts where the packed mutable one ends. -/
theorem startReadOnly_eq_ok (h : a.Sound) (he : a.startReadOnly = .ok a') :
    a.current = .mutable ∧ a'.current = .readOnly ∧ a'.Sound ∧ a'.length = a.length ∧
      a'.alignment = a.alignment ∧ a.mutable.top ≤ a'.mutable.top ∧
      a'.readOnly.top = a'.readOnly.base := by
  unfold startReadOnly at he
  split at he
  · rename_i hc
    obtain ⟨k, hk, halign⟩ := h.alignment
    have hlimit : a.mutable.limit ≤ a.length := by
      have := h.mutable_limit
      have := h.readOnly_base
      have := h.readOnly_top
      have := h.readOnly_limit
      omega
    obtain ⟨hbase, htop, hlim, hlen, hdvd, hend⟩ := Region.pack_bounds a.mutable hk h.mutable_top
      hlimit h.mutable_words.1 h.mutable_words.2 h.words
    unfold pack currentRegion setCurrent at he
    rw [hc, halign] at he
    cases he
    exact ⟨hc, rfl, ⟨⟨k, hk, rfl⟩, hbase.trans h.base, Nat.le_trans h.padding htop, hlim,
      Nat.le_refl _, Nat.le_refl _, hlen, Nat.le_refl _, nofun,
      fun _ => Region.limit_pack a.mutable (h.unpacked hc), ⟨hdvd, hend⟩, ⟨hend, h.words⟩, h.words⟩, rfl,
      halign.symm, htop, rfl⟩
  · cases he

/-- The read-only region may grow to the end of the buffer, and it starts less than `a.alignment`
    above the mutable one. -/
theorem startReadOnly_room (h : a.Sound) (hlimit : a.length < addressLimit)
    (he : a.startReadOnly = .ok a') :
    a'.top + wordBytes ≤ a.top + a.alignment ∧ a'.currentRegion.limit = a'.length := by
  unfold startReadOnly at he
  split at he
  · rename_i hc
    obtain ⟨k, hk, halign⟩ := h.alignment
    have htop := Region.pack_top a.mutable hk (h.unpacked hc) h.mutable_words.1 h.words hlimit
    have hend : (a.mutable.pack (2 ^ k) a.length).limit = (a.mutable.pack (2 ^ k) a.length).top :=
      Region.limit_pack _ (h.unpacked hc)
    rw [← hend] at htop
    unfold pack currentRegion setCurrent at he
    rw [hc, halign] at he
    cases he
    unfold top currentRegion
    rw [hc, halign]
    exact ⟨htop, rfl⟩
  · cases he

/-- Packing the read-only region ends allocation and keeps the mutable region as it is. -/
theorem Sound.pack (h : a.Sound) (hc : a.current = .readOnly) :
    a.pack.Sound ∧ a.pack.current = .readOnly ∧ a.pack.length = a.length ∧
      a.pack.alignment = a.alignment ∧ a.pack.mutable = a.mutable ∧
      a.pack.readOnly.base = a.readOnly.base ∧ a.readOnly.top ≤ a.pack.readOnly.top := by
  obtain ⟨k, hk, halign⟩ := h.alignment
  obtain ⟨hbase, htop, hlim, hlen, hdvd, hend⟩ := Region.pack_bounds a.readOnly hk h.readOnly_top
    h.readOnly_limit h.readOnly_words.1 h.readOnly_words.2 h.words
  unfold Arena.pack currentRegion setCurrent
  rw [hc, halign]
  refine ⟨⟨⟨k, hk, rfl⟩, h.base, h.padding, h.mutable_top, ?_, ?_, hlim, hlen, nofun,
    fun _ => hbase.trans (h.adjacent hc), h.mutable_words, ⟨hdvd, hend⟩, h.words⟩, rfl, rfl, rfl, rfl,
    hbase, htop⟩
  · exact Nat.le_trans h.mutable_limit (Nat.le_of_eq hbase.symm)
  · exact Nat.le_trans (Nat.le_of_eq hbase) (Nat.le_trans h.readOnly_base htop)

/-- Packing does not lower `a.top`. -/
theorem Sound.top_le_pack (h : a.Sound) (hc : a.current = .readOnly) : a.top ≤ a.pack.top := by
  obtain ⟨-, hc', -, -, -, -, htop⟩ := h.pack hc
  unfold top currentRegion
  rw [hc, hc']
  exact htop

/-- Packing the read-only region moves no base, and no top down. -/
theorem Sound.region_pack (h : a.Sound) (hc : a.current = .readOnly) (kind : RegionKind) :
    (a.pack.region kind).base = (a.region kind).base ∧ (a.region kind).top ≤ (a.pack.region kind).top := by
  obtain ⟨-, -, -, -, hmutable, hbase, htop⟩ := h.pack hc
  cases kind with
  | mutable => exact ⟨congrArg Region.base hmutable, Nat.le_of_eq (congrArg Region.top hmutable.symm)⟩
  | readOnly => exact ⟨hbase, htop⟩

theorem Sound.region_base_le_top (h : a.Sound) (kind : RegionKind) :
    (a.region kind).base ≤ (a.region kind).top := by
  cases kind with
  | mutable => exact Nat.le_trans (Nat.le_of_eq h.base) (Nat.zero_le _)
  | readOnly => exact h.readOnly_base

/-- Once the read-only region is begun, the bytes used by both add up to `a.top`. -/
theorem Sound.used_eq_top (h : a.Sound) (hc : a.current = .readOnly) :
    a.mutable.used + a.readOnly.used = a.top := by
  have hbase := h.base
  have hadjacent := h.adjacent hc
  have htop := h.readOnly_base
  unfold Region.used top currentRegion region
  rw [hc]
  dsimp only
  omega

end Arena

/-- At least `bytes` bytes are counted, unless the count stays at the largest one. -/
def SizeEstimate.Covers (e : SizeEstimate) (bytes : Nat) : Prop := min bytes maxBytes ≤ e.objectBytes

namespace SizeEstimate.Covers

variable {e e' : SizeEstimate} {m n : Nat}

theorem refl (e : SizeEstimate) : e.Covers e.objectBytes := Nat.min_le_left ..

theorem mono (h : e.Covers n) (hle : m ≤ n) : e.Covers m := by
  unfold Covers at *
  omega

theorem trans (h : e.Covers e'.objectBytes) (h' : e'.Covers n) : e.Covers n := by
  unfold Covers at *
  omega

theorem addBytes (h : e.Covers n) (bytes : Nat) : (e.addBytes bytes).Covers (n + bytes) := by
  unfold Covers SizeEstimate.addBytes satAdd at *
  dsimp only
  omega

/-- An object of `size` bytes counts with the `allocatedBytes size` that its allocation takes. -/
theorem addObject (h : e.Covers n) (size : Nat) : (e.addObject size).Covers (n + allocatedBytes size) :=
  h.addBytes _

end SizeEstimate.Covers

end SnapshotArchive
