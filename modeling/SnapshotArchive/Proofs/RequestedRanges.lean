import Mathlib.Tactic.Common
import SnapshotArchive.Proofs.Changes
import SnapshotArchive.Proofs.Milestones

/-!
Requested ranges in exact integers. Byte counts saturate, sums are checked, and rounding masks low bits;
still a base address is refused exactly where the archive would reach the end of the address space, and
what is reserved is the sum that was meant. Both packings cut the regions at the region alignment, so the
bound on the reservation carries over to the archive.
-/

namespace SnapshotArchive

open SessionM Session

namespace Session

variable {s : Session}

/-- Where the archive of `s` is meant to start: at the base address, or above the dependency. -/
def exactBottom (s : Session) : Nat :=
  match s.dependency? with
  | none => s.settings.requestedBase.toNat
  | some d => roundUp d.requested.top.toNat s.settings.regionAlignment

/-- Usable settings align to a power of two, `2 ^ k`, which is a word. -/
theorem Sound.alignment (h : s.Sound) (hword : s.settings.regionAlignment < addressLimit) :
    ∃ k, s.settings.regionAlignment = 2 ^ k ∧ 3 ≤ k ∧ k < 64 := by
  obtain ⟨k, hk, hk3, -⟩ := Settings.validate_eq_ok h.settings
  refine ⟨k, hk, hk3, (Nat.pow_lt_pow_iff_right (a := 2) (by decide)).1 ?_⟩
  rw [← hk]
  exact hword

theorem Sound.requestedBottom?_eq (h : s.Sound) (hword : s.settings.regionAlignment < addressLimit) :
    s.requestedBottom? = if s.exactBottom < addressLimit then some s.exactBottom else none := by
  obtain ⟨k, hk, -, hk'⟩ := h.alignment hword
  unfold requestedBottom? exactBottom
  cases s.dependency? with
  | none => exact (if_pos s.settings.requestedBase.toNat_lt).symm
  | some d =>
    dsimp only
    rw [hk, alignUp?_eq_roundUp _ hk'.le]

/-- The archive is meant to start at `requestedBase` or above it. -/
theorem Sound.base_le (h : s.Sound) (hword : s.settings.regionAlignment < addressLimit) :
    s.settings.requestedBase.toNat ≤ s.exactBottom := by
  obtain ⟨k, hk, -, hk'⟩ := h.alignment hword
  unfold exactBottom
  cases hd : s.dependency? with
  | none => exact Nat.le_refl _
  | some d =>
    have hbase : d.requested.bottom.toNat = s.settings.requestedBase.toNat :=
      congrArg UInt64.toNat (h.dependency d hd).1
    have hle := d.requested.bottom_le_top
    have hup := le_roundUp d.requested.top.toNat k
    dsimp only
    rw [hk]
    omega

end Session

namespace SessionM

variable {s : Session}

/-- The failure `f` says that the archive does not fit above the base address. -/
def Refuses (f : Failure) : Prop := ∃ base bottom top, f = .error (.baseAddressTooHigh base bottom top)

/-- A place for `size` bytes is refused exactly where the end of the archive would be no address. -/
theorem triple_placeArchive_exact (h : s.Sound) (hword : s.settings.regionAlignment < addressLimit)
    {size : Nat} (hsize : 0 < size) :
    Triple (· = s) (placeArchive size) (fun _ s' => s' = s ∧ s.exactBottom + size < addressLimit)
      (fun f s' => s' = s ∧ addressLimit ≤ s.exactBottom + size ∧ Refuses f) := by
  rintro r rfl
  have hbase := h.base_le hword
  unfold placeArchive refuseBase
  simp only [wp_bind, wp_session]
  rw [h.requestedBottom?_eq hword]
  by_cases hbottom : r.session.exactBottom < addressLimit
  · rw [if_pos hbottom]
    by_cases htop : r.session.exactBottom + size < addressLimit
    · simp only [requestedTop?, Option.bind_some, if_pos htop]
      rw [if_pos ⟨hbase, by omega⟩]
      exact ⟨rfl, htop⟩
    · simp only [requestedTop?, Option.bind_some, if_neg htop, wp_bind, wp_tell, wp_throw]
      exact ⟨trivial, Nat.not_lt.1 htop, _, _, _, rfl⟩
  · rw [if_neg hbottom]
    simp only [wp_bind, wp_tell, wp_throw]
    exact ⟨trivial, by omega, _, _, _, rfl⟩

theorem reserve_not_refuses {reservations : Reservations} {length align : Nat} {e : BuildError}
    (h : Buffer.reserve reservations length align = .error e) : ¬Refuses e := by
  unfold Buffer.reserve at h
  dsimp only at h
  split at h
  · cases h
  · cases h
    rintro ⟨_, _, _, hsame⟩
    cases hsame

theorem start_not_refuses {b : Buffer} {alignment : Nat} {a : Advisories} {bottom : Addr .requested}
    {e : BuildError} (h : Output.start b alignment a bottom = .error e) : ¬Refuses e := by
  unfold Output.start Arena.start Arena.allocate at h
  simp only at h
  split at h
  · split at h
    · cases h
    · cases h
      exact nofun
  · cases h
    exact nofun

/-- Telling cannot fail. -/
theorem triple_tellAll {P : Session → Prop} {E : Failure → Session → Prop} (events : List Event) :
    Triple P (events.forM tell) (fun _ => P) E :=
  Triple.forM (I := fun _ => P) (fun event _ r h => by rw [wp_tell]; exact h) events

/-- A reservation is refused for the base address exactly where the archive does not fit above it,
    with the advisories `a`. -/
theorem triple_reserveBuffer_exact (h : s.Sound) (hword : s.settings.regionAlignment < addressLimit)
    (hstage : s.stage = .gathered) (a : Advisories) :
    Triple (· = s) (reserveBuffer a)
      (fun _ _ => s.exactBottom + s.estimate.total a s.settings.regionAlignment < addressLimit)
      (fun f _ => Refuses f ↔
        addressLimit ≤ s.exactBottom + s.estimate.total a s.settings.regionAlignment) := by
  obtain ⟨k, hk, hk3, hk'⟩ := h.alignment hword
  have hsize : 0 < s.estimate.total a s.settings.regionAlignment := by
    have hle : 2 ^ k ≤ 2 ^ 63 := Nat.pow_le_pow_right (by decide) (by omega)
    have hpos := Nat.two_pow_pos k
    have hlarge : 2 ^ k + (2 ^ k - 1) < addressLimit := by
      unfold addressLimit
      omega
    have hbounds := (SizeEstimate.total_bounds (e := s.estimate) (a := a) hk3 hlarge).1
    rw [hk]
    omega
  rintro r rfl
  unfold reserveBuffer
  rw [wp_bind, wp_requireStage, if_pos hstage]
  simp only [wp_bind, wp_session]
  refine (triple_tellAll (P := (· = r.session)) (E := fun _ _ => False) _).use rfl (fun _ r₁ h₁ => ?_) fun _ _ h => h.elim
  refine (triple_placeArchive_exact h hword hsize).use h₁ (fun bottom r₂ h₂ => ?_) fun f _ h₂ => ?_
  · -- what may fail now is the reservation, for another reason
    obtain ⟨-, hfits⟩ := h₂
    have hother {f : Failure} (hf : ¬Refuses f) : Refuses f ↔ addressLimit ≤ r.session.exactBottom +
        r.session.estimate.total a r.session.settings.regionAlignment :=
      iff_of_false hf (Nat.not_le.2 hfits)
    rw [wp_ofBuild]
    cases hb : Buffer.reserve r.session.reservations
        (r.session.estimate.total a r.session.settings.regionAlignment)
        r.session.settings.regionAlignment with
    | error e => exact hother (reserve_not_refuses hb)
    | ok b =>
      dsimp only
      rw [wp_tell, wp_ofBuild]
      cases ho : Output.start b r.session.settings.regionAlignment a bottom with
      | error e => exact hother (start_not_refuses ho)
      | ok o => exact hfits
  · exact ⟨fun _ => h₂.2.1, fun _ => h₂.2.2⟩

end SessionM

namespace Session

/-- A dependency mapped at `m` can be planned exactly if it fits above `base`. -/
theorem plan_eq_error {base : Word} {m : AddrRange .mapped} (h : addressLimit ≤ base.toNat + m.length) :
    Dependency.plan base m = .error (.baseAddressTooHigh base.toNat base.toNat maxBytes) := by
  have hnone : AddrRange.ofLength? (⟨base⟩ : Addr .requested) m.length = none := by
    unfold AddrRange.ofLength? Addr.add? Addr.ofNat?
    rw [show Word.ofNat? ((⟨base⟩ : Addr .requested).toNat + m.length) = none from Word.ofNat?_eq_none h]
    rfl
  unfold Dependency.plan
  rw [hnone]

theorem plan_isOk {base : Word} {m : AddrRange .mapped} (h : base.toNat + m.length < addressLimit) :
    ∃ d, Dependency.plan base m = .ok d := by
  obtain ⟨requested, hrequested, -⟩ := AddrRange.ofLength?_eq_some (⟨base⟩ : Addr .requested) h
  refine ⟨⟨m, requested⟩, ?_⟩
  unfold Dependency.plan
  rw [hrequested]

/-- A session can begin on a dependency `m` exactly if it still fits above the base address. -/
theorem begin_refuses_iff {host : Host} {reservations : Reservations} {settings : Settings}
    (hvalid : settings.validate = .ok ()) (mapped? : Option (AddrRange .mapped)) :
    (∃ base bottom top, begin host reservations settings mapped? false =
      .error (.baseAddressTooHigh base bottom top)) ↔
    ∃ m, mapped? = some m ∧ addressLimit ≤ settings.requestedBase.toNat + m.length := by
  cases mapped? with
  | none =>
    rw [begin_fresh hvalid]
    exact ⟨nofun, nofun⟩
  | some m =>
    have hbegin : begin host reservations settings (some m) false =
        (Dependency.plan settings.requestedBase m).map fun d => fresh host reservations settings (some d) := by
      unfold begin
      rw [hvalid]
      cases hd : Dependency.plan settings.requestedBase m <;> simp [hd] <;> rfl
    rw [hbegin]
    rcases Nat.lt_or_ge (settings.requestedBase.toNat + m.length) addressLimit with hfits | hbeyond
    · obtain ⟨d, hd⟩ := plan_isOk hfits
      rw [hd]
      refine ⟨nofun, ?_⟩
      rintro ⟨_, ⟨⟩, hbeyond⟩
      exact absurd hfits (Nat.not_lt.2 hbeyond)
    · rw [plan_eq_error hbeyond]
      exact ⟨fun _ => ⟨m, rfl, hbeyond⟩, fun _ => ⟨_, _, _, rfl⟩⟩

end Session

/-- If `r` is packed, it ends at its top, at a multiple of `alignment`. -/
def Region.Cut (r : Region) (alignment : Nat) : Prop :=
  r.packed = true → r.limit = r.top ∧ alignment ∣ r.top

theorem Region.packed_pack (r : Region) (alignment length : Nat) : (r.pack alignment length).packed = true := by
  unfold pack
  split
  · assumption
  · rfl

/-- Packing cuts `r`, if the buffer ends at a multiple of `2 ^ k`. -/
theorem Region.Cut.pack {r : Region} {k length : Nat} (h : r.Cut (2 ^ k)) (hlength : 2 ^ k ∣ length) :
    (r.pack (2 ^ k) length).Cut (2 ^ k) := by
  cases hpacked : r.packed with
  | true =>
    rw [Region.pack, if_pos hpacked]
    exact h
  | false =>
    obtain ⟨t, hpack, -, -, hdvd, -⟩ := r.pack_open k length hpacked
    rw [hpack]
    exact fun _ => ⟨rfl, hdvd _ (Nat.dvd_refl _) hlength⟩

/-- The regions of `o` that are packed are cut at `align`, and the mutable one is once the other is
    begun. -/
structure Output.Cut (o : Output) (align : Nat) : Prop where
  alignment : o.arena.alignment = align
  length : align ∣ o.buffer.length
  regions : ∀ kind, (o.arena.region kind).Cut align
  begun : o.arena.current = .readOnly → (o.arena.region .mutable).packed = true

namespace Output.Cut

variable {o o' : Output} {align k : Nat}

theorem sameRoom (h : o.Cut align) (hroom : o.SameRoom o') : o'.Cut align := by
  obtain ⟨halignment, hlength, hregions, hbegun⟩ := h
  rw [← hroom.arena] at halignment hregions hbegun
  exact ⟨halignment, hroom.length ▸ hlength, hregions, hbegun⟩

/-- Nothing is allocated from `o` to `o'` in a region that is packed. -/
theorem grows (h : o.Cut align) (hgrows : o.Grows o') : o'.Cut align := by
  obtain ⟨t, hlow, hhigh, -, harena⟩ := hgrows.arena
  refine ⟨?_, hgrows.length ▸ h.length, fun kind hpacked => ?_, fun hcurrent => ?_⟩
  · rw [harena, Arena.alignment_advance]
    exact h.alignment
  · rw [harena, Arena.region_advance] at hpacked ⊢
    split at hpacked
    · rename_i hkind
      obtain ⟨hlimit, hdvd⟩ := h.regions kind hpacked
      rw [if_pos hkind]
      have htop : t = (o.arena.region kind).top := by
        rw [← hkind] at hlimit ⊢
        exact Nat.le_antisymm (hhigh.trans (Nat.le_of_eq hlimit)) hlow
      exact ⟨hlimit.trans htop.symm, htop ▸ hdvd⟩
    · rename_i hkind
      rw [if_neg hkind]
      exact h.regions kind hpacked
  · rw [harena, Arena.current_advance] at hcurrent
    rw [harena, Arena.region_advance, hcurrent, if_neg nofun]
    exact h.begun hcurrent

/-- Packing the current region cuts it at `2 ^ k`. -/
theorem pack (h : o.Cut (2 ^ k)) (hlength : o.arena.length = o.buffer.length)
    (harena : o'.arena = o.arena.pack) (hbuffer : o'.buffer.length = o.buffer.length) : o'.Cut (2 ^ k) := by
  refine ⟨?_, hbuffer ▸ h.length, fun kind => ?_, fun hcurrent => ?_⟩
  · rw [harena, Arena.alignment_pack]
    exact h.alignment
  · rw [harena, Arena.region_pack]
    split
    · rw [h.alignment, hlength]
      exact (h.regions kind).pack h.length
    · exact h.regions kind
  · rw [harena, Arena.current_pack] at hcurrent
    rw [harena, Arena.region_pack, hcurrent, if_neg nofun]
    exact h.begun hcurrent

/-- The mutable region is packed before the read-only one is begun. -/
theorem startReadOnly {arena : Arena} (h : o.Cut (2 ^ k)) (hlength : o.arena.length = o.buffer.length)
    (he : o.arena.startReadOnly = .ok arena) (harena : o'.arena = arena)
    (hbuffer : o'.buffer.length = o.buffer.length) : o'.Cut (2 ^ k) := by
  unfold Arena.startReadOnly at he
  split at he
  · rename_i hc
    obtain rfl := Except.ok.inj he
    have hpacked : Output.Cut { o with arena := o.arena.pack } (2 ^ k) := h.pack hlength rfl rfl
    refine ⟨?_, hbuffer ▸ h.length, fun kind => ?_, fun _ => ?_⟩
    · rw [harena]
      exact hpacked.alignment
    · rw [harena]
      cases kind with
      | mutable => exact hpacked.regions .mutable
      | readOnly => exact nofun
    · rw [harena]
      change (o.arena.pack.region .mutable).packed = true
      rw [Arena.region_pack, if_pos hc]
      exact Region.packed_pack ..
  · cases he

/-- A fresh output `o` has no packed region. -/
theorem ofFresh {s : Session} {a : Advisories} (h : Fresh s a o)
    (hk : s.settings.regionAlignment = 2 ^ k) : o.Cut (2 ^ k) := by
  have hsize := h.size
  have hstarted := h.started
  rw [hk] at hsize hstarted
  obtain ⟨-, -, halignment⟩ := Arena.start_room hstarted
  refine ⟨halignment, ?_, fun kind hpacked => ?_, fun hcurrent => ?_⟩
  · rw [hsize]
    exact s.estimate.dvd_total a k
  · rw [Arena.start_unpacked hstarted kind] at hpacked
    cases hpacked
  · rw [h.current] at hcurrent
    cases hcurrent

end Output.Cut

/-- The regions of the output of `s` are cut at the alignment `2 ^ k` of the settings. -/
structure Session.Cut (k : Nat) (s : Session) : Prop where
  settings : s.settings.regionAlignment = 2 ^ k
  output : ∀ o, s.output? = some o → o.Cut (2 ^ k)

namespace SessionM

variable {s s' : Session} {k : Nat}

/-- Contents of the buffer do not count. -/
theorem Touches.cut (htouch : Touches s s') (h : s.Cut k) : s'.Cut k := by
  obtain rfl | ⟨o, o', ho, hroom, rfl⟩ := htouch
  · exact h
  · refine ⟨h.settings, ?_⟩
    rintro _ ⟨⟩
    exact (h.output o ho).sameRoom hroom

/-- Every change from `s` to `s'` keeps the regions cut. -/
theorem Change.cut (hc : Change s s') (hs : s.Sound) (h : s.Cut k) : s'.Cut k := by
  refine ⟨hc.frame.2.1 ▸ h.settings, ?_⟩
  cases hc with
  | seeded _ step => obtain ⟨_, _, _, rfl⟩ := step; exact h.output
  | noted _ _ step => rw [step.frame]; exact h.output
  | found _ _ step => rw [step.frame]; exact h.output
  | reserved _ fresh =>
    rintro _ ⟨⟩
    exact .ofFresh fresh h.settings
  | allocated out limit words =>
    rintro _ ⟨⟩
    exact (h.output _ out).grows (Output.grows_advance (Nat.le_add_right ..) limit words)
  | slot step =>
    obtain ⟨o, o', n, ho, -, hchange, hs'⟩ := step
    exact (Touches.cut (.inr ⟨o, o', ho, hchange.room, hs'⟩) h).output
  | metered step => exact (step.touches.cut h).output
  | linked step => exact (step.touches.cut h).output
  | copied _ step =>
    obtain ⟨e, o, o', _, _, _, _, ho, -, -, -, hdone, -, rfl⟩ := step
    rintro _ ⟨⟩
    exact (h.output o ho).grows hdone.grows
  | halted _ halt =>
    obtain ⟨rfl, -⟩ | ⟨e, o, -, ho, o', _, hstop, -, rfl⟩ := halt
    · exact h.output
    · rintro _ ⟨⟩
      exact (h.output o ho).grows hstop.grows
  | switched _ step =>
    obtain ⟨o, arena, ho, harena, rfl⟩ := step
    rintro _ ⟨⟩
    exact (h.output o ho).startReadOnly (hs.filled o ho).length harena rfl rfl
  | aliased step =>
    obtain ⟨_, _, -, -, -, rfl⟩ := step
    exact h.output
  | landed _ out land =>
    rintro _ ⟨⟩
    exact (h.output _ out).pack (hs.filled _ out).length land.arena land.length
  | stranded _ out halt =>
    obtain ⟨top?, hroom⟩ := halt.room
    rintro _ ⟨⟩
    exact (h.output _ out).pack (hs.filled _ out).length hroom.arena hroom.length
  | entered => exact h.output

end SessionM

/-- If `s` is finished, it has packed its regions, and knows where they end. -/
def Session.Archived (s : Session) : Prop :=
  s.stage = .relocated → ∃ o top, s.output? = some o ∧ (o.arena.region .readOnly).packed = true ∧
    o.requestedTop? = some top ∧ top.toNat = o.requestedBottom.toNat + o.arena.top

namespace Call

variable {s : Session}

theorem archived_relocate (hs : s.Sound) (h : s.Archived) : (relocate.after s).Archived := by
  by_cases hstage : s.stage = .wired
  · obtain ⟨o, ho⟩ := Sound.output_of_rank hs (by rw [hstage]; decide)
    obtain ⟨_, -, o', hland, hafter⟩ | ⟨_, -, i, o', -, -, hafter⟩ :=
      (triple_relocate_halted hs ho hstage).perform rfl
    · have hc := (hs.filled o ho).switched (by rw [hstage]; decide)
      obtain ⟨top, htop, hplace⟩ := hland.top
      change relocate.after s = _ at hafter
      rw [hafter]
      refine fun _ => ⟨o', top, rfl, ?_, htop, ?_⟩
      · rw [hland.arena, Arena.region_pack, if_pos hc]
        exact Region.packed_pack ..
      · rw [hland.requested, hland.arena]
        exact hplace
    · change relocate.after s = _ at hafter
      rw [hafter]
      intro hrelocated
      exact nomatch hstage.symm.trans hrelocated
  · obtain ⟨_, -, hfalse⟩ | ⟨_, -, hafter, -⟩ := (triple_outOfOrder (Q := fun _ _ => False) hstage).perform rfl
    · exact hfalse.elim
    · change relocate.after s = _ at hafter
      rw [hafter]
      exact h

/-- Every call `c` leaves finished sessions finished. -/
theorem archived_after (c : Call) (hs : s.Sound) (h : s.Archived) : (c.after s).Archived := by
  by_cases hc : c.milestone? = some .relocate
  · cases c with
    | relocate => exact archived_relocate hs h
    | _ => cases hc
  · intro hstage
    have hrests := rests_after hs hc hstage
    obtain ⟨o, top, ho, hrest⟩ := h (hrests.stage.symm.trans hstage)
    exact ⟨o, top, (hrests.output (hrests.stage.symm.trans hstage)).trans ho, hrest⟩

end Call

theorem Session.Archived.afterCalls {s : Session} (hs : s.Sound) (h : s.Archived) (calls : List Call) :
    (s.afterCalls calls).Archived := by
  induction calls generalizing s with
  | nil => exact h
  | cons c rest ih => exact ih (c.sound_after hs) (c.archived_after hs h)

namespace Session

/-- The parts of `a` are slices of the buffer that lie back to back from its bottom, in multiples of
    `align`; together they are as long as its requested range, which starts at `bottom`. -/
structure Archive.Tiles (a : Archive) (align bottom : Nat) : Prop where
  start : a.mutable.base = 0
  mutable : a.mutable.base ≤ a.mutable.top ∧ align ∣ a.mutable.used
  adjacent : a.readOnly.base = a.mutable.top
  readOnly : a.readOnly.base ≤ a.readOnly.top ∧ align ∣ a.readOnly.used
  inside : a.readOnly.top ≤ a.buffer.length
  requested_bottom : a.requested.bottom.toNat = bottom
  requested_length : a.requested.length = a.mutable.used + a.readOnly.used

variable {s : Session} {k : Nat} {o : Output}

/-- The archive will start at the `bottom` where it is meant to. -/
theorem exactBottom_eq (hs : s.Sound) (hword : s.settings.regionAlignment < addressLimit) {bottom : Nat}
    (hbottom : s.requestedBottom? = some bottom) : bottom = s.exactBottom := by
  rw [hs.requestedBottom?_eq hword] at hbottom
  split at hbottom
  · exact (Option.some_inj.1 hbottom).symm
  · cases hbottom

/-- A finished archive `a` is made of the two regions, as they were packed. -/
theorem Cut.tiles (h : s.Cut k) (hs : s.Sound) (hword : s.settings.regionAlignment < addressLimit)
    (harchived : s.Archived) {a : Archive} (ha : s.archive? = some a) : a.Tiles (2 ^ k) s.exactBottom := by
  obtain ⟨hstage, -⟩ := archive?_eq_some ha
  obtain ⟨o, top, ho, hpacked, htop, hplace⟩ := harchived hstage
  have hle : o.requestedBottom.toNat ≤ top.toNat := by omega
  have hbounds : AddrRange.ofBounds? o.requestedBottom top = some ⟨o.requestedBottom, top, hle⟩ := dif_pos hle
  unfold archive? at ha
  rw [if_pos hstage, ho] at ha
  simp only [Option.bind_eq_bind, Option.bind_some, htop, hbounds, Option.pure_def, Option.some_inj] at ha
  obtain rfl := ha
  have hf := hs.filled o ho
  have hc := hf.switched (by rw [hstage]; decide)
  have hcut := h.output o ho
  have hbase := hf.arena.base
  have hadjacent := hf.arena.adjacent hc
  have hmutable : 2 ^ k ∣ o.arena.mutable.top := (hcut.regions .mutable (hcut.begun hc)).2
  have hreadOnly : 2 ^ k ∣ o.arena.readOnly.top := (hcut.regions .readOnly hpacked).2
  refine ⟨hbase, ⟨?_, ?_⟩, hadjacent, ⟨hf.arena.readOnly_base, ?_⟩, ?_, exactBottom_eq hs hword hf.bottom, ?_⟩
  · rw [hbase]
    exact Nat.zero_le _
  · unfold Region.used
    rw [hbase]
    exact hmutable
  · unfold Region.used
    rw [hadjacent]
    exact Nat.dvd_sub hreadOnly hmutable
  · have hlimit := hf.arena.readOnly_top.trans hf.arena.readOnly_limit
    rw [hf.length] at hlimit
    exact hlimit
  · rw [hf.arena.used_eq_top hc]
    unfold AddrRange.length
    dsimp only
    omega

/-- What a reservation with the advisories `a` answers and leads to, in exact integers. -/
structure ReservesExactly (s : Session) (a : Advisories) : Prop where
  /-- The base address is refused exactly where the archive would not end at an address. -/
  refused : (∃ f, ((reserveBuffer a).perform s).1 = .error f ∧ Refuses f) ↔
    addressLimit ≤ s.exactBottom ∨
      addressLimit ≤ s.exactBottom + s.estimate.total a s.settings.regionAlignment
  /-- What is reserved is what was meant, and it fits above the dependency. -/
  reserved : ((reserveBuffer a).perform s).1 = .ok () →
    ∃ o, ((reserveBuffer a).perform s).2.session.output? = some o ∧
      s.estimate.total a s.settings.regionAlignment = s.estimate.exact a s.settings.regionAlignment ∧
      o.buffer.length = s.estimate.total a s.settings.regionAlignment ∧
      s.settings.regionAlignment ∣ o.buffer.length ∧ o.requestedBottom.toNat = s.exactBottom ∧
      (∀ d, s.dependency? = some d → d.requested.top.toNat ≤ o.requestedBottom.toNat) ∧
      o.requestedBottom.toNat + o.buffer.length < addressLimit
  /-- Whatever is called then, the archive lies in what was reserved. -/
  archived : ((reserveBuffer a).perform s).1 = .ok () → ∀ calls archive,
    (((reserveBuffer a).perform s).2.session.afterCalls calls).archive? = some archive →
      archive.Tiles s.settings.regionAlignment s.exactBottom

/-- Whatever `calls` are made on a session without output, an archive that it makes is cut at the
    alignment. -/
theorem Sound.tiles (hs : s.Sound) (hword : s.settings.regionAlignment < addressLimit)
    (hnone : s.output? = none) (calls : List Call) {a : Archive}
    (ha : (s.afterCalls calls).archive? = some a) : a.Tiles s.settings.regionAlignment s.exactBottom := by
  obtain ⟨k, hk, -⟩ := hs.alignment hword
  have hdevelops := hs.develops calls
  have hstart : s.Cut k := ⟨hk, fun o ho => nomatch hnone.symm.trans ho⟩
  have hcut : (s.afterCalls calls).Cut k :=
    hdevelops.keeps (fun _ _ hs _ hc h => hc.cut hs h) hstart
  have harchived : (s.afterCalls calls).Archived := by
    refine Archived.afterCalls hs (fun hstage => ?_) calls
    have hrank := (hs.bare hnone).1
    rw [hstage] at hrank
    cases hrank
    contradiction
  obtain ⟨-, hsettings, hdependency⟩ := hdevelops.frame
  have hbottom : (s.afterCalls calls).exactBottom = s.exactBottom := by
    unfold exactBottom
    rw [hsettings, hdependency]
  rw [hk, ← hbottom]
  exact hcut.tiles hdevelops.sound (hsettings ▸ hword) harchived ha

theorem Sound.reservesExactly (hs : s.Sound) (hword : s.settings.regionAlignment < addressLimit)
    (hstage : s.stage = .gathered) (a : Advisories) : ReservesExactly s a := by
  have hnone : s.output? = none := hs.output_eq_none (by rw [hstage]; decide)
  obtain ⟨k, hk, -, hk'⟩ := hs.alignment hword
  refine ⟨?_, fun hok => ?_, fun _ calls archive ha => ?_⟩
  · have hsum : addressLimit ≤ s.exactBottom ∨
        addressLimit ≤ s.exactBottom + s.estimate.total a s.settings.regionAlignment ↔
          addressLimit ≤ s.exactBottom + s.estimate.total a s.settings.regionAlignment := by
      omega
    rw [hsum]
    obtain ⟨_, hok, hfits⟩ | ⟨f, hf, hiff⟩ := (triple_reserveBuffer_exact hs hword hstage a).perform rfl
    · rw [hok]
      exact ⟨nofun, fun hbeyond => absurd hfits (Nat.not_lt.2 hbeyond)⟩
    · rw [hf, ← hiff]
      refine ⟨?_, fun hrefuses => ⟨f, rfl, hrefuses⟩⟩
      rintro ⟨_, ⟨⟩, hrefuses⟩
      exact hrefuses
  · obtain ⟨_, -, -, o, hfresh, hafter⟩ | ⟨f, hf, -⟩ := (triple_reserveBuffer hs.settings a).perform rfl
    · have hcut := Output.Cut.ofFresh hfresh hk
      have hbottom := exactBottom_eq hs hword hfresh.bottom
      refine ⟨o, by rw [hafter], ?_, hfresh.size, ?_, hbottom, fun d hd => ?_, hfresh.room⟩
      · have hsize := hfresh.size
        rw [hk] at hsize ⊢
        exact SizeEstimate.total_eq_exact hk' (hsize ▸ hfresh.short)
      · rw [hk]
        exact hcut.length
      · rw [hbottom]
        unfold exactBottom
        rw [hd, hk]
        exact le_roundUp ..
    · rw [hf] at hok
      cases hok
  · exact hs.tiles hword hnone (.reserveBuffer a :: calls) ha

/-- Requested ranges fit, for any usable `settings`, dependency, estimate and advisories: a base
    address is refused exactly where the ranges would not end at addresses, and otherwise all is as
    in exact integers. -/
theorem requested_ranges_exact {host : Host} {reservations : Reservations} {settings : Settings}
    (hvalid : settings.validate = .ok ()) (hword : settings.regionAlignment < addressLimit)
    (mapped? : Option (AddrRange .mapped)) :
    ((∃ base bottom top, begin host reservations settings mapped? false =
        .error (.baseAddressTooHigh base bottom top)) ↔
      ∃ m, mapped? = some m ∧ addressLimit ≤ settings.requestedBase.toNat + m.length) ∧
    ∀ alive s, begin host reservations settings mapped? alive = .ok s → ∀ calls,
      ((s.afterCalls calls).stage = .gathered → ∀ estimate a,
        ReservesExactly { s.afterCalls calls with estimate := estimate } a) ∧
      ∀ archive, (s.afterCalls calls).archive? = some archive →
        archive.Tiles settings.regionAlignment s.exactBottom := by
  refine ⟨begin_refuses_iff hvalid mapped?, fun alive s hbegin calls => ?_⟩
  have hs := sound_begin hbegin
  obtain ⟨-, d?, -, rfl⟩ := begin_eq_ok hbegin
  refine ⟨fun hstage estimate a => ?_, fun archive ha => hs.tiles hword rfl calls ha⟩
  have hafter := (hs.develops calls).sound
  obtain ⟨-, hsettings, -⟩ := (hs.develops calls).frame
  have hsound : Session.Sound { (fresh host reservations settings d?).afterCalls calls with estimate } :=
    { hafter with filled := fun o ho => { hafter.filled o ho with } }
  exact hsound.reservesExactly (hsettings ▸ hword) hstage a

/-- The last page of the address space as the base address. -/
def lastPage : Settings := ⟨0xfffffffffffff000, 0x1000, 0, false⟩

/-- A dependency of one page. -/
def pageMapped : AddrRange .mapped := ⟨⟨0x100000000000⟩, ⟨0x100000001000⟩, by decide⟩

/-- A session on the last page. -/
def lastPageFresh : Session := fresh pairHeap.toHost ⟨⟨0x20000⟩, 0x1000, room_fits⟩ lastPage none

/-- That session once it has gathered, with an estimate of 16 bytes. -/
def lastPageGathered : Session :=
  { lastPageFresh.afterCalls [.gather [0x100000000000]] with estimate := ⟨16⟩ }

/-- Neither a dependency of a page nor an archive of 16 bytes fits on the last page. -/
theorem requested_ranges_exact_last :
    lastPage.validate = .ok () ∧ lastPage.regionAlignment < addressLimit ∧
    (∃ base bottom top, begin pairHeap.toHost ⟨⟨0x20000⟩, 0x1000, room_fits⟩ lastPage (some pageMapped) false =
      .error (.baseAddressTooHigh base bottom top)) ∧
    begin pairHeap.toHost ⟨⟨0x20000⟩, 0x1000, room_fits⟩ lastPage none false = .ok lastPageFresh ∧
    (lastPageFresh.afterCalls [.gather [0x100000000000]]).stage = .gathered ∧
    ∃ f, ((reserveBuffer ⟨0, 0, 0⟩).perform lastPageGathered).1 = .error f ∧ Refuses f := by
  have hvalid : lastPage.validate = .ok () := by decide +kernel
  have hword : lastPage.regionAlignment < addressLimit := by decide
  have hbegin : begin pairHeap.toHost ⟨⟨0x20000⟩, 0x1000, room_fits⟩ lastPage none false =
      .ok lastPageFresh := begin_fresh hvalid
  have hstage : (lastPageFresh.afterCalls [.gather [0x100000000000]]).stage = .gathered := by decide +kernel
  have hpage : addressLimit ≤ lastPage.requestedBase.toNat + pageMapped.length := by decide
  have hexact : ReservesExactly lastPageGathered ⟨0, 0, 0⟩ :=
    ((requested_ranges_exact hvalid hword none).2 false lastPageFresh hbegin [.gather [0x100000000000]]).1
      hstage ⟨16⟩ ⟨0, 0, 0⟩
  have hbeyond : addressLimit ≤ lastPageGathered.exactBottom +
      lastPageGathered.estimate.total ⟨0, 0, 0⟩ lastPageGathered.settings.regionAlignment := by decide +kernel
  exact ⟨hvalid, hword, (requested_ranges_exact hvalid hword (some pageMapped)).1.2 ⟨_, rfl, hpage⟩, hbegin,
    hstage, hexact.refused.2 (.inr hbeyond)⟩

end Session

end SnapshotArchive
