import Mathlib.Order.Bounds.Basic
import Mathlib.Tactic.Common
import SnapshotArchive.Proofs.BumpAllocation
import SnapshotArchive.Proofs.Sufficiency

/-!
Three accounts of the bytes of an archive: where its regions end, what the meter counts, and what the
statistics say. Each operation changes them in places of its own, and still they agree as long as no copying
stops half-way: a region ends where the statistics say, and a check is passed exactly by an estimate that is
no less than what was allocated since the check before. What packing wastes is in none of the accounts.
-/

namespace SnapshotArchive

open SessionM Session

theorem Stage.before_relocated {t : Stage} : t.before .relocated = true ↔ t ≠ .relocated := by
  cases t <;> decide

namespace Stats

/-- What `f` adds to the count of the region `kind` is counted in no other. -/
theorem bytes_update (s : Stats) (kind : RegionKind) {f : RegionStats → RegionStats} {n : Nat}
    (hf : ∀ r, (f r).bytes = r.bytes + n) (k : RegionKind) :
    ((s.update kind f).region k).bytes = (s.region k).bytes + if kind = k then n else 0 := by
  cases kind <;> cases k <;> simp [update, region, hf]

/-- The bytes that `s` counts in both regions. -/
def recorded (s : Stats) : Nat := s.mutable.bytes + s.readOnly.bytes

theorem recorded_eq {s s' : Stats} {kind : RegionKind} {n : Nat}
    (h : ∀ k, (s'.region k).bytes = (s.region k).bytes + if kind = k then n else 0) :
    s'.recorded = s.recorded + n := by
  have hmutable : s'.mutable.bytes = s.mutable.bytes + _ := h .mutable
  have hreadOnly : s'.readOnly.bytes = s.readOnly.bytes + _ := h .readOnly
  unfold recorded
  rw [hmutable, hreadOnly]
  cases kind
  · rw [if_pos rfl, if_neg (by decide)]
    omega
  · rw [if_neg (by decide), if_pos rfl]
    omega

end Stats

namespace Session

/-- As many bytes are counted in the region `kind` as its arena grew by from `s` to `s'`, and none
    in the other. -/
def Counts (kind : RegionKind) (s s' : Session) : Prop :=
  ∃ o o', s.output? = some o ∧ s'.output? = some o' ∧ ∀ k, (s'.stats.region k).bytes =
    (s.stats.region k).bytes + if kind = k then o'.arena.top - o.arena.top else 0

end Session

namespace SessionM

variable {P : Session → Prop} {tables : TableProvider}

theorem keeps_openOutput (step : String) : Keeps P (openOutput step) := by
  intro r h
  rw [wp_openOutput]
  split
  · split <;> exact h
  · exact h

theorem keeps_ofBuild {α : Type} (x : Except BuildError α) : Keeps P (ofBuild x) := by
  intro r h
  rw [wp_ofBuild]
  cases x <;> exact h

theorem keeps_ofViolation {α : Type} (x : Except Violation α) : Keeps P (ofViolation x) := by
  intro r h
  rw [wp_ofViolation]
  cases x <;> exact h

variable {stats : Stats}

theorem keeps_stats_allocateCopy (bytes : Nat) : Keeps (·.stats = stats) (allocateCopy bytes) :=
  (keeps_openOutput _).bind fun _ => (keeps_ofBuild _).bind fun _ _ h => h

theorem keeps_stats_installTable (target table : Addr .buffer) :
    Keeps (·.stats = stats) (installTable target table) :=
  (keeps_openOutput _).bind fun _ => (keeps_ofViolation _).bind fun _ =>
    (keeps_ofViolation _).bind fun _ _ h => h

theorem keeps_stats_placeCopy (source : Word) (target : Addr .buffer) :
    Keeps (·.stats = stats) (placeCopy source target) := by
  intro r h
  unfold placeCopy
  simp only [wp_bind, wp_session, wp_update, wp_ofViolation]
  rcases r.session.catalog.place source target with ⟨_ | _, _⟩ <;> exact h

/-- The last part of a copy to `target`: what the arena grew by since `o` is counted. -/
theorem triple_finishCopy_counts {s : Session} {o : Output} (ho : s.output? = some o) (e : SourceEntry)
    (target : Addr .buffer) (event : Event) :
    Triple (·.stats = s.stats) (do
      placeCopy e.source target
      tell event
      let after ← openOutput "make_shallow_copy"
      update fun s' => { s' with
        stats := s'.stats.record e.kind (after.arena.top - o.arena.top) (.ofReadOnly e.readOnly) })
    (fun _ => Counts (.ofReadOnly e.readOnly) s) (fun _ _ => True) := by
  intro r h
  rw [wp_bind]
  refine (keeps_stats_placeCopy e.source target).use h (fun _ r₁ h₁ => ?_) fun _ _ _ => trivial
  rw [wp_bind, wp_tell, wp_bind, wp_openOutput]
  cases ho₁ : r₁.session.output? with
  | none => exact trivial
  | some o' =>
    dsimp only
    split
    · rw [wp_update]
      refine ⟨o, o', ho, ho₁, fun k => ?_⟩
      rw [← h₁]
      exact r₁.session.stats.bytes_update _ (fun a => a.bytes_record _ _) k
    · exact trivial

/-- A copy is counted in the region of `e`, with all that was allocated for it. -/
theorem triple_copyEntry_counts (s : Session) (e : SourceEntry) :
    Triple (· = s) (copyEntry tables e) (fun _ => Counts (.ofReadOnly e.readOnly) s) (fun _ _ => True) := by
  rintro r rfl
  unfold copyEntry
  rw [wp_bind, wp_openOutput]
  cases ho : r.session.output? with
  | none => exact trivial
  | some o =>
    dsimp only
    split
    · refine wp_maybe (I := (·.stats = r.session.stats)) (F := fun _ _ => True)
        (fun _ => (keeps_stats_allocateCopy wordBytes).conseq (fun _ h => by rw [h]) (fun _ _ h => h)
          fun _ _ _ => trivial) (fun _ => rfl) (fun _ _ _ => trivial) fun r₁ h₁ => ?_
      rw [wp_bind]
      refine (keeps_stats_allocateCopy e.size).use h₁ (fun offset r₂ h₂ => ?_) fun _ _ _ => trivial
      rw [wp_bind, wp_copyWords]
      dsimp only
      cases tables e.kind (o.buffer.addrAt offset) with
      | none => exact triple_finishCopy_counts ho e _ _ _ h₂
      | some table =>
        rw [wp_bind]
        exact (keeps_stats_installTable _ table).use h₂
          (fun _ r₃ h₃ => triple_finishCopy_counts ho e _ _ r₃ h₃) fun _ _ _ => trivial
    · exact trivial

/-- The copy of `w` is counted in the region `kind` that is being copied. -/
theorem triple_copyObject_counts {s : Session} {kind : RegionKind} {stage : Stage} {w : Word}
    {rest : List Word} (h : Copying kind stage (w :: rest) s) :
    Triple (· = s) (copyObject tables w) (fun _ => Counts kind s) (fun _ _ => True) := by
  obtain ⟨done, hsplit, -⟩ := h.done
  obtain ⟨e, he, -, -, rfl⟩ := h.sound.books.listed kind w (by rw [hsplit]; simp)
  rintro r rfl
  unfold copyObject
  have hget : r.session.catalog.get? w = some e := he
  simp only [wp_bind, wp_session, hget]
  exact triple_copyEntry_counts r.session e r rfl

/-- The `n` bytes that are allocated by hand are counted in the current region of `o`. -/
theorem triple_allocateOther_counts {s : Session} {o : Output} (ho : s.output? = some o) (n : Nat) :
    Triple (· = s) (allocateOther n) (fun _ => Counts o.arena.current s) (fun _ _ => True) := by
  rintro r rfl
  unfold allocateOther
  simp only [wp_bind, wp_session]
  split
  · exact trivial
  · rw [wp_bind, wp_openOutput, ho]
    dsimp only
    split
    · rw [wp_bind, wp_ofBuild]
      cases o.arena.allocate n with
      | error e => exact trivial
      | ok p =>
        simp only [wp_bind, wp_changeOutput, wp_update, wp_pure]
        exact ⟨o, { o with arena := p.2 }, ho, by rw [ho]; rfl,
          r.session.stats.bytes_update _ fun a => a.bytes_recordOther _⟩
    · exact trivial

end SessionM

/-- The regions of `o` end where `stats` says, and its meter counts `unverified` bytes. -/
structure Output.Balanced (align : Nat) (stats : Stats) (unverified : Nat) (o : Output) : Prop where
  alignment : o.arena.alignment = align
  length : align ∣ o.arena.length
  growing : o.arena.mutable.packed = false → o.arena.mutable.top = bottomPadding + stats.mutable.bytes
  packed : o.arena.mutable.packed = true →
    IsLeast {t | bottomPadding + stats.mutable.bytes ≤ t ∧ align ∣ t} o.arena.mutable.top
  waiting : o.arena.current = .mutable → stats.readOnly.bytes = 0
  readOnly : o.arena.readOnly.top = o.arena.readOnly.base + stats.readOnly.bytes
  verified : o.meter.verifiedTop ≤ o.arena.top
  used : o.meter.used o.arena.top = unverified

namespace Output.Balanced

variable {align n m : Nat} {stats stats' : Stats} {o o' : Output}

/-- Only the arena and the meter of `o` count, not its contents and marks. -/
theorem congr (h : o.Balanced align stats n) (harena : o'.arena = o.arena) (hmeter : o'.meter = o.meter) :
    o'.Balanced align stats n where
  alignment := harena ▸ h.alignment
  length := harena ▸ h.length
  growing := harena ▸ h.growing
  packed := harena ▸ h.packed
  waiting := harena ▸ h.waiting
  readOnly := harena ▸ h.readOnly
  verified := by rw [harena, hmeter]; exact h.verified
  used := by rw [harena, hmeter]; exact h.used

/-- A fresh output holds the padding and nothing else. -/
theorem ofFresh {s : Session} {a : Advisories} (h : Fresh s a o) :
    o.Balanced s.settings.regionAlignment .zero 0 := by
  obtain ⟨k, -, halign⟩ := h.arena.alignment
  obtain ⟨-, hstart⟩ := Arena.start_eq h.started
  have halignment : o.arena.alignment = s.settings.regionAlignment := by rw [hstart]; rfl
  refine
    { alignment := halignment
      length := ?_
      growing := fun _ => by rw [hstart]; rfl
      packed := fun hpacked => ?_
      waiting := fun _ => rfl
      readOnly := by rw [hstart]; rfl
      verified := by rw [h.meter]; exact Nat.le_refl _
      used := by rw [h.meter]; exact UsageMeter.used_start _ }
  · rw [h.length, h.size, ← halignment, halign]
    exact SizeEstimate.dvd_total ..
  · rw [hstart] at hpacked
    cases hpacked

/-- The `m` bytes that `o` grows by are counted in its current region, and by the meter. -/
theorem grows (h : o.Balanced align stats n) (hs : o.arena.Sound) (hgrows : o.Grows o')
    (htop : o'.arena.top = o.arena.top + m)
    (hstats : ∀ k, (stats'.region k).bytes =
      (stats.region k).bytes + if o.arena.current = k then m else 0) :
    o'.Balanced align stats' (n + m) := by
  obtain ⟨t, -, -, -, harena⟩ := hgrows.arena
  have hmutable : o'.arena.mutable = _ := harena ▸ o.arena.region_advance t .mutable
  have hreadOnly : o'.arena.readOnly = _ := harena ▸ o.arena.region_advance t .readOnly
  have hmutableBytes : stats'.mutable.bytes = stats.mutable.bytes + _ := hstats .mutable
  have hreadOnlyBytes : stats'.readOnly.bytes = stats.readOnly.bytes + _ := hstats .readOnly
  have hcurrent : o'.arena.current = o.arena.current := by rw [harena, Arena.current_advance]
  have ht : t = o.arena.top + m := by rw [← htop, harena, Arena.top_advance]
  have halignment : o'.arena.alignment = align := by rw [harena, Arena.alignment_advance]; exact h.alignment
  have hlength : align ∣ o'.arena.length := by rw [harena, Arena.length_advance]; exact h.length
  have hverified : o'.meter.verifiedTop ≤ o'.arena.top := by
    rw [hgrows.meter, htop]
    exact Nat.le_add_right_of_le h.verified
  have hused : o'.meter.used o'.arena.top = n + m := by
    rw [hgrows.meter, htop, UsageMeter.used_add _ h.verified, h.used]
  -- the region that is filled grows on both sides; the other one does not change
  cases hc : o.arena.current with
  | mutable =>
    have htop₀ : o.arena.top = o.arena.mutable.top := by rw [Arena.top, Arena.currentRegion, hc]; rfl
    have hopen := hs.unpacked hc
    rw [hc, if_pos rfl] at hmutable hmutableBytes
    rw [hc, if_neg (by decide)] at hreadOnly hreadOnlyBytes
    refine ⟨halignment, hlength, fun _ => ?_, fun hpacked => ?_, fun _ => ?_, ?_, hverified, hused⟩
    · have hbytes := h.growing hopen
      rw [hmutable, hmutableBytes]
      dsimp only
      omega
    · rw [hmutable] at hpacked
      cases hopen.symm.trans hpacked
    · rw [hreadOnlyBytes]
      exact h.waiting hc
    · rw [hreadOnly, hreadOnlyBytes]
      exact h.readOnly
  | readOnly =>
    have htop₀ : o.arena.top = o.arena.readOnly.top := by rw [Arena.top, Arena.currentRegion, hc]; rfl
    have hbytes := h.readOnly
    rw [hc, if_neg (by decide)] at hmutable hmutableBytes
    rw [hc, if_pos rfl] at hreadOnly hreadOnlyBytes
    refine ⟨halignment, hlength, ?_, ?_, fun hm => ?_, ?_, hverified, hused⟩
    · rw [hmutable, hmutableBytes]
      exact h.growing
    · rw [hmutable, hmutableBytes]
      exact h.packed
    · cases hm.symm.trans (hcurrent.trans hc)
    · rw [hreadOnly, hreadOnlyBytes]
      dsimp only [Arena.region]
      omega

/-- A check that is passed leaves `0` bytes to check. -/
theorem restart (h : o.Balanced align stats n) :
    Output.Balanced align stats 0 { o with meter := .start o.arena.top } :=
  { h with verified := Nat.le_refl _, used := UsageMeter.used_start _ }

/-- What packing wastes is not counted. -/
theorem switch {arena : Arena} (h : o.Balanced align stats n) (hs : o.arena.Sound)
    (hlength : o.arena.length < addressLimit) (he : o.arena.startReadOnly = .ok arena) :
    Output.Balanced align stats n
      { o with arena, meter := o.meter.switchRegion o.arena.top arena.top } := by
  obtain ⟨k, -, halign⟩ := hs.alignment
  have hdvd : 2 ^ k ∣ o.arena.length := by rw [← halign, h.alignment]; exact h.length
  have hpadding := hs.padding_le_top
  have hend := hs.top_le_length
  -- the buffer holds the padding and is a multiple of `2 ^ k`, so `2 ^ k` is a word
  have hk : k ≤ 64 := by
    by_contra hge
    have hle := Nat.le_of_dvd (by unfold bottomPadding at hpadding; omega) hdvd
    have hpow : addressLimit ≤ 2 ^ k := Nat.pow_le_pow_right Nat.two_pos (Nat.le_of_not_le hge)
    omega
  unfold Arena.startReadOnly at he
  split at he
  · rename_i hc
    cases he
    have htop : o.arena.mutable.top ≤ o.arena.length := by rwa [Arena.top, Arena.currentRegion, hc] at hend
    have hopen := hs.unpacked hc
    have hpack : o.arena.pack.mutable = _ := (o.arena.region_pack .mutable).trans (if_pos hc)
    rw [halign] at hpack
    have hpacked := hpack.trans
      (Region.pack_eq hdvd hk hlength htop fun hp => absurd (hopen.symm.trans hp) Bool.false_ne_true)
    have halign' : align = 2 ^ k := h.alignment.symm.trans halign
    refine
      { alignment := (Arena.alignment_pack _).trans h.alignment
        length := (Arena.length_setCurrent _ _).symm ▸ h.length
        growing := fun hp => by rw [hpacked] at hp; cases hp
        packed := fun _ => ?_
        waiting := fun hm => by cases hm
        readOnly := by rw [h.waiting hc]; rfl
        verified := Nat.le_refl _
        used := (UsageMeter.used_switchRegion ..).trans h.used }
    · have htop' : o.arena.pack.mutable.top = _ := congrArg Region.top hpacked
      rw [htop', ← h.growing hopen, halign']
      exact isLeast_roundUp ..
  · cases he

end Output.Balanced

/-- The accounts of `s` agree, where `taken` bytes were allocated, and `unverified` of them since
    the last check. -/
structure Session.Balanced (taken unverified : Nat) (s : Session) : Prop where
  unfinished : s.stage ≠ .relocated
  recorded : s.stats.recorded = taken
  bare : s.output? = none → s.stats = .zero
  output : ∀ o, s.output? = some o → o.Balanced s.settings.regionAlignment s.stats unverified

namespace Session

/-- With the copies of `rest` the accounts of `s` will agree, `taken` bytes will be allocated, and
    `unverified` of them since the check. -/
def Nearing (taken unverified : Nat) (rest : List Word) (s : Session) : Prop :=
  ∃ t n, t + s.need rest = taken ∧ n + s.need rest = unverified ∧ s.Balanced t n

/-- Lists and stages do not count, unless the archive is shifted. -/
theorem Balanced.congr {t n : Nat} {s s' : Session} (h : s.Balanced t n) (hstage : s'.stage ≠ .relocated)
    (hstats : s'.stats = s.stats) (houtput : s'.output? = s.output?) (hsettings : s'.settings = s.settings) :
    s'.Balanced t n where
  unfinished := hstage
  recorded := hstats ▸ h.recorded
  bare := fun hnone => hstats.trans (h.bare (houtput.symm.trans hnone))
  output := fun o ho => by
    rw [hsettings, hstats]
    exact h.output o (houtput.symm.trans ho)

/-- The output `o` and the statistics `stats` of a session change together. -/
theorem Balanced.withOutput {t t' n m : Nat} {s : Session} {o : Output} {catalog : Catalog} {stats : Stats}
    (h : s.Balanced t n) (hrecorded : stats.recorded = t')
    (ho : o.Balanced s.settings.regionAlignment stats m) :
    Balanced t' m { s with output? := some o, catalog := catalog, stats := stats } := by
  refine ⟨h.unfinished, hrecorded, nofun, ?_⟩
  rintro _ ⟨⟩
  exact ho

theorem Balanced.nearing {t n : Nat} {s : Session} (h : s.Balanced t n) : s.Nearing t n [] :=
  ⟨t, n, rfl, rfl, h⟩

theorem Nearing.balanced {t n : Nat} {s : Session} (h : s.Nearing t n []) : s.Balanced t n := by
  obtain ⟨_, _, rfl, rfl, h⟩ := h
  exact h

end Session

namespace SessionM

variable {s s' : Session} {t n taken unverified : Nat} {w : Word} {rest : List Word} {tables : TableProvider}

theorem SlotStep.balanced {slot : Addr .buffer} (hstep : SlotStep slot s s') (h : s.Balanced t n) :
    s'.Balanced t n := by
  obtain ⟨o, o', i, ho, -, hchange, rfl⟩ := hstep
  exact h.withOutput h.recorded ((h.output o ho).congr hchange.room.arena hchange.meter)

theorem WireStep.balanced {l : CopyList} (hstep : WireStep l w s s') (h : s.Balanced t n) :
    s'.Balanced t n := by
  obtain ⟨o, e, target, base, i, word, ho, -, -, -, -, rfl⟩ := hstep
  have hchange := (SlotChange.write o (base + i) word).mark
  exact h.withOutput h.recorded ((h.output o ho).congr hchange.room.arena hchange.meter)

theorem Metered.balanced (hmeter : Metered s s') (h : s.Balanced t n) : s'.Balanced t 0 := by
  obtain ⟨o, ho, rfl⟩ := hmeter
  exact h.withOutput h.recorded (h.output o ho).restart

theorem AliasStep.balanced {former substitute : Word} (hstep : AliasStep former substitute s s')
    (h : s.Balanced t n) : s'.Balanced t n := by
  obtain ⟨_, _, -, -, -, rfl⟩ := hstep
  exact h.congr h.unfinished rfl rfl rfl

theorem SwitchStep.balanced (hstep : SwitchStep s s') (hs : s.Sound) (h : s.Balanced t n) :
    s'.Balanced t n := by
  obtain ⟨o, arena, ho, harena, rfl⟩ := hstep
  have hf := hs.filled o ho
  have hfits := o.buffer.fits
  have hlength := hf.length
  exact h.withOutput h.recorded ((h.output o ho).switch hf.arena (by omega) harena)

/-- The copy of `w` does not change what the other copies take. -/
theorem CopyStep.need (hstep : CopyStep tables w s s') : s'.need = s.need := by
  obtain ⟨_, _, hspends, -⟩ := hstep.spends
  exact hspends.need

/-- What the copy of `w` takes is counted in the region `kind` that is being copied. -/
theorem CopyStep.nearing {kind : RegionKind} {stage : Stage} (hstep : CopyStep tables w s s')
    (hcopying : Copying kind stage (w :: rest) s) (hcounts : Counts kind s s')
    (h : s.Nearing taken unverified (w :: rest)) : s'.Nearing taken unverified rest := by
  obtain ⟨t, n, rfl, rfl, hn⟩ := h
  refine ⟨t + s.footprintAt w, n + s.footprintAt w, by rw [hstep.need, need_cons, Nat.add_assoc],
    by rw [hstep.need, need_cons, Nat.add_assoc], ?_⟩
  obtain ⟨e, o, o', _, _, _, _, ho, he, -, -, hdone, -, rfl⟩ := hstep
  obtain ⟨o₁, ho₁, hcurrent⟩ := hcopying.current
  obtain rfl : o = o₁ := Option.some_inj.1 (ho.symm.trans ho₁)
  obtain ⟨o₂, o₃, ho₂, ho₃, hbytes⟩ := hcounts
  obtain rfl : o = o₂ := Option.some_inj.1 (ho.symm.trans ho₂)
  obtain rfl : o' = o₃ := Option.some_inj.1 ho₃
  rw [footprintAt_of_get? he]
  rw [hdone.top, Nat.add_sub_cancel_left] at hbytes
  refine hn.withOutput ((Stats.recorded_eq hbytes).trans (congrArg (· + _) hn.recorded))
    ((hn.output o ho).grows (hcopying.sound.filled o ho).arena hdone.grows hdone.top ?_)
  rwa [hcurrent]

theorem triple_copyObject_nearing {kind : RegionKind} {stage : Stage}
    (hcopying : Copying kind stage (w :: rest) s) (h : s.Nearing taken unverified (w :: rest)) :
    Triple (· = s) (copyObject tables w)
      (fun _ s' => Copying kind stage rest s' → s'.Nearing taken unverified rest) (fun _ _ => True) := by
  refine ((triple_copyObject hcopying.sound w).and (triple_copyObject_counts hcopying)).conseq
    (fun _ hs => ⟨hs, hs⟩) ?_ fun _ _ _ => trivial
  rintro _ s' ⟨hstep, hcounts⟩ -
  exact hstep.nearing hcopying hcounts h

/-- Copying the mutable objects takes the `s.need` bytes that they need. -/
theorem triple_copyMutable_balanced (hs : s.Sound) (h : s.Balanced t n) :
    Triple (· = s) (copyMutable tables)
      (fun _ => Balanced (t + s.need (s.books.sources .mutable)) (n + s.need (s.books.sources .mutable)))
      (fun _ _ => True) := by
  refine Triple.ofStage ((triple_copyMutable_each
    (C := Nearing (t + s.need (s.books.sources .mutable)) (n + s.need (s.books.sources .mutable)))
    (F := fun _ _ => True) fun _ _ _ => triple_copyObject_nearing).conseq ?_ ?_ fun _ _ _ => trivial)
    fun _ _ _ => trivial
  · rintro _ ⟨rfl, hstage⟩
    exact ⟨hs, hstage, t, n, rfl, rfl, h⟩
  · rintro _ _ ⟨s₁, -, hC, rfl, -⟩
    exact hC.balanced.congr nofun rfl rfl rfl

/-- Before the check, copying the read-only objects takes the `s.need` bytes that they need. -/
theorem triple_copyUnchecked_balanced (hs : s.Sound) (h : s.Balanced t n) :
    Triple (· = s) (copyUnchecked tables)
      (fun _ s' => s'.output? ≠ none ∧ s'.Balanced (t + s.need (s.books.sources .readOnly))
        (n + s.need (s.books.sources .readOnly)))
      (fun _ _ => True) := by
  refine Triple.ofStage ((triple_copyUnchecked_each (F := fun _ _ => True)
    (B := fun s' => s'.Balanced t n ∧
      s'.need (s'.books.sources .readOnly) = s.need (s.books.sources .readOnly))
    (fun _ _ _ _ => trivial)
    (fun s₁ s' hs₁ _ hB hstep => ?_)
    (fun _ _ _ => triple_copyObject_nearing)
    (fun _ _ _ _ hsettling _ _ hstep => (hstep.balanced hsettling.2.2.2.2.2.balanced).nearing)
    fun _ _ _ _ => trivial).conseq ?_ (fun _ _ h => ⟨h.2.2.1, h.2.2.2.2.2.balanced⟩) fun _ _ _ => trivial)
    fun _ _ _ => trivial
  · have hneed : s'.need (s'.books.sources .readOnly) = s.need (s.books.sources .readOnly) := by
      rw [← hB.2]
      obtain ⟨_, _, -, -, rfl⟩ := hstep
      rfl
    exact ⟨t, n, by rw [← hneed], by rw [← hneed], hstep.balanced hs₁ hB.1⟩
  · rintro _ ⟨rfl, hstage⟩
    exact ⟨hs, hstage, h, rfl⟩

/-- The check at the end of copying leaves `0` bytes to check. -/
theorem triple_copyReadOnly_balanced (hs : s.Sound) (h : s.Balanced t n) :
    Triple (· = s) (copyReadOnly tables) (fun _ => Balanced (t + s.need (s.books.sources .readOnly)) 0)
      (fun _ _ => True) := by
  rw [copyReadOnly_eq]
  refine (triple_copyUnchecked_balanced hs h).bind fun _ r hr => ?_
  unfold finishReadOnly
  rw [wp_bind, wp_output]
  split
  · simp only [wp_bind, wp_session]
    refine (triple_verifyEstimate _ _).use rfl (fun _ r' hmeter => ?_) fun _ _ _ => trivial
    rw [wp_enter]
    exact (hmeter.balanced hr.2).congr nofun rfl rfl rfl
  · exact trivial

/-- An allocation by hand takes `allocatedBytes bytes`, or nothing changes. -/
theorem triple_allocateOther_balanced (hs : s.Sound) (h : s.Balanced t n) (bytes : Nat) :
    Triple (· = s) (allocateOther bytes)
      (fun _ => Balanced (t + allocatedBytes bytes) (n + allocatedBytes bytes))
      (fun _ => Balanced t n) := by
  cases ho : s.output? with
  | none =>
    refine (triple_allocateOther hs.arenas bytes).conseq (fun _ hs => hs) ?_
      fun _ _ h' => by rw [h'.1]; exact h
    rintro _ _ ⟨-, o, _, _, ho', -⟩
    exact nomatch ho.symm.trans ho'
  | some o =>
    refine ((triple_allocateOther hs.arenas bytes).and (triple_allocateOther_counts ho bytes)).conseq
      (fun _ hs => ⟨hs, hs⟩) ?_ fun _ _ h' => by rw [h'.1.1]; exact h
    rintro _ s' ⟨⟨-, o₁, top, stats, ho₁, -, rfl, hlow, hhigh, hdvd, rfl⟩, o₂, o', ho₂, ho', hbytes⟩
    obtain rfl : o = o₁ := Option.some_inj.1 (ho.symm.trans ho₁)
    obtain rfl : o = o₂ := Option.some_inj.1 (ho.symm.trans ho₂)
    obtain rfl := Option.some_inj.1 ho'
    rw [Arena.top_advance, Nat.add_sub_cancel_left] at hbytes
    exact h.withOutput ((Stats.recorded_eq hbytes).trans (congrArg (· + _) h.recorded))
      ((h.output o ho).grows (hs.filled o ho).arena (Output.grows_advance (by omega) hhigh hdvd)
        (Arena.top_advance ..) hbytes)

/-- Gathering takes nothing: `t` and `n` are as before. -/
theorem triple_gather_balanced (h : s.Balanced t n) (roots : List Word) :
    Triple (· = s) (gather roots) (fun _ => Balanced t n) (fun _ => Balanced t n) := by
  have hbalanced : ∀ s', Gathers s s' → s'.Balanced t n := by
    rintro _ ⟨b, _, _, _, rfl⟩
    exact h.congr h.unfinished rfl rfl rfl
  refine ((triple_gather (P := Gathers s) (E := fun _ => Gathers s) roots
    (fun _ => ⟨s.books, _, _, _, rfl⟩) (fun _ s' hseeds => ?_) fun _ s₁ root hseeds => ?_).conseq
    (fun _ hs => hs) ?_ fun _ => hbalanced)
  · obtain ⟨_, _, _, rfl⟩ := hseeds
    exact ⟨⟨s.books, _, _, _, rfl⟩, fun _ => ⟨s.books, _, _, _, rfl⟩⟩
  · have hhost : s₁.host = s.host := by obtain ⟨_, _, _, rfl⟩ := hseeds; rfl
    rw [hhost]
    exact keeps_gathers root
  · rintro _ _ ⟨-, s₁, hs₁, rfl⟩
    exact (hbalanced s₁ hs₁).congr nofun rfl rfl rfl

/-- A check is passed exactly by an `estimate` of at least the `n` bytes allocated since the last
    one. -/
theorem verifyEstimate_eq_ok {o : Output} (h : s.Balanced t n) (ho : s.output? = some o) (estimate : Nat)
    (label : String) : ((verifyEstimate estimate label).perform s).1 = .ok () ↔ n ≤ estimate := by
  have hopen := Stage.before_relocated.2 h.unfinished
  have hexact : Triple (· = s) (verifyEstimate estimate label) (fun _ _ => n ≤ estimate)
      (fun _ _ => estimate < n) := by
    rintro r rfl
    unfold verifyEstimate
    simp only [wp_bind, wp_openOutput, ho, hopen, if_true, wp_tell, wp_ofViolation, UsageMeter.verify,
      (h.output o ho).used]
    split <;> rename_i hverify
    · by_contra hlt
      rw [if_pos (Nat.not_le.1 hlt)] at hverify
      cases hverify
    · by_contra hle
      rw [if_neg hle] at hverify
      cases hverify
  obtain ⟨⟨⟩, hok, hle⟩ | ⟨f, herror, hlt⟩ := hexact.perform rfl
  · exact ⟨fun _ => hle, fun _ => hok⟩
  · rw [herror]
    exact ⟨nofun, fun hle => absurd hle (Nat.not_le.2 hlt)⟩

end SessionM

namespace Call

/-- The call `c` on `s` succeeds. -/
def answers (c : Call) (s : Session) : Bool := (c.run.perform s).1.toOption.isSome

/-- The bytes that `c` takes from the current region if it succeeds: those that are asked for, or
    those of the objects that it copies and of their lookup records, each rounded up to
    `objectAlign`. -/
def takes (c : Call) (s : Session) : Nat :=
  match c with
  | allocateOther bytes => allocatedBytes bytes
  | copyMutable _ => s.need (s.books.sources .mutable)
  | copyReadOnly _ => s.need (s.books.sources .readOnly)
  | _ => 0

/-- After the call, if it succeeds, there is no byte that was not checked. -/
def checks : Call → Bool
  | reserveBuffer _ | verifyEstimate .. | copyReadOnly _ => true
  | _ => false

/-- The bytes that are allocated after `c`, if `t` were before it. -/
def taken (c : Call) (s : Session) (t : Nat) : Nat := if c.answers s then t + c.takes s else t

/-- The bytes that are not checked yet after `c`, if `n` were not before it. -/
def unverified (c : Call) (s : Session) (n : Nat) : Nat :=
  if c.answers s then if c.checks then 0 else n + c.takes s else n

/-- The call `c` does not stop copying half-way, and `s` is not shifted yet. -/
def proceeds (c : Call) (s : Session) : Bool :=
  match c with
  | copyMutable _ | copyReadOnly _ => c.answers s
  | relocate => s.stage != .wired
  | _ => true

variable {s : Session} {t n : Nat} {c : Call}

/-- What `c` leaves if it succeeds, and if it fails. -/
theorem balanced_of_triple
    (h : Triple (· = s) c.run (fun _ => Balanced (t + c.takes s) (if c.checks then 0 else n + c.takes s))
      fun _ s' => c.answers s = false → s'.Balanced t n) :
    (c.after s).Balanced (c.taken s t) (c.unverified s n) := by
  unfold taken unverified after
  obtain ⟨_, hok, hbalanced⟩ | ⟨f, herror, hbalanced⟩ := h.perform rfl
  · have hanswers : c.answers s = true := by
      unfold answers
      rw [hok]
      rfl
    rw [if_pos hanswers, if_pos hanswers]
    exact hbalanced
  · have hanswers : c.answers s = false := by
      unfold answers
      rw [herror]
      rfl
    have hfails : ¬ c.answers s = true := by rw [hanswers]; decide
    rw [if_neg hfails, if_neg hfails]
    exact hbalanced hanswers

/-- A call `c` that proceeds keeps the accounts in agreement. -/
theorem balanced_after (hs : s.Sound) (h : s.Balanced t n) (c : Call) (hc : c.proceeds s = true) :
    (c.after s).Balanced (c.taken s t) (c.unverified s n) := by
  have hslot : ∀ {slot : Addr .buffer} {m : SessionM Unit}, Slotting slot s m →
      Triple (· = s) m (fun _ => Balanced t n) fun _ s' => c.answers s = false → s'.Balanced t n := fun hm =>
    hm.conseq (fun _ hs => hs) (fun _ _ hstep => hstep.balanced h) fun _ _ hs _ => by rw [hs]; exact h
  refine balanced_of_triple ?_
  cases c with
  | gather roots =>
    exact (triple_gather_balanced h roots).conseq (fun _ hs => hs) (fun _ _ h => h) fun _ _ h _ => h
  | reserveBuffer a =>
    refine (triple_reserveBuffer hs.settings a).conseq (fun _ hs => hs) ?_ fun _ _ h' _ => by
      rw [h']
      exact h
    rintro _ _ ⟨hstage, o, hfresh, rfl⟩
    refine ⟨nofun, h.recorded, nofun, ?_⟩
    rintro _ ⟨⟩
    rw [h.bare (hs.output_eq_none (by rw [hstage]; decide))]
    exact Output.Balanced.ofFresh (s := s) hfresh
  | allocateOther bytes =>
    exact ((triple_allocateOther_balanced hs h bytes).conseq (fun _ hs => hs) (fun _ _ h => h)
      fun _ _ h _ => h).bind fun _ _ h => h
  | writeWord slot w => exact hslot (slotting_writeWord slot w)
  | verifyEstimate estimate label =>
    exact (triple_verifyEstimate estimate label).conseq (fun _ hs => hs)
      (fun _ _ hmeter => hmeter.balanced h) fun _ _ h' _ => by rw [h'.1]; exact h
  | copyMutable tables =>
    exact (triple_copyMutable_balanced hs h).conseq (fun _ hs => hs) (fun _ _ h => h)
      fun _ _ _ hno => nomatch hc.symm.trans hno
  | copyReadOnly tables =>
    exact (triple_copyReadOnly_balanced hs h).conseq (fun _ hs => hs) (fun _ _ h => h)
      fun _ _ _ hno => nomatch hc.symm.trans hno
  | recordReplaced former substitute =>
    exact (triple_recordReplaced s former substitute).conseq (fun _ hs => hs)
      (fun _ _ hstep => hstep.2.balanced h) fun _ _ h' _ => by rw [h']; exact h
  | markPointer slot => exact hslot (slotting_markPointer slot)
  | setPointer slot value => exact hslot (slotting_setPointer slot value)
  | clearPointer slot => exact hslot (slotting_clearPointer slot)
  | writePointer slot source? => exact hslot (slotting_writePointer slot source?)
  | wire =>
    refine Triple.ofStage ((triple_wire_stage (C := Balanced t n) fun _ _ _ _ _ hC hstep =>
      hstep.balanced hC).conseq (fun _ hs' => ⟨hs'.1 ▸ hs, hs'.2, hs'.1 ▸ h⟩) ?_ fun _ _ hs' _ => hs'.2.2)
      fun _ hs' _ _ => hs' ▸ h
    rintro _ _ ⟨s₁, hC, rfl, -⟩
    exact hC.congr nofun rfl rfl rfl
  | relocate =>
    have hstage : s.stage ≠ .wired := by simpa [proceeds] using hc
    exact (triple_outOfOrder hstage).conseq (fun _ hs => hs) (fun _ _ h => h) fun _ _ h' _ => by
      rw [h'.1]
      exact h

end Call

namespace Session

/-- The bytes that are allocated after some calls on `s`, if `t` were before them. -/
def taken (s : Session) (t : Nat) : List Call → Nat
  | [] => t
  | c :: calls => (c.after s).taken (c.taken s t) calls

/-- The bytes that some calls on `s` leave unchecked, after `n` that were not checked before. -/
def unverified (s : Session) (n : Nat) : List Call → Nat
  | [] => n
  | c :: calls => (c.after s).unverified (c.unverified s n) calls

/-- No call in turn stops copying half-way, and none comes after `relocate` has shifted the
    archive. -/
def proceeds (s : Session) : List Call → Bool
  | [] => true
  | c :: calls => c.proceeds s && (c.after s).proceeds calls

variable {s : Session} {t n : Nat}

theorem Balanced.afterCalls (h : s.Balanced t n) (hs : s.Sound) (calls : List Call)
    (hcalls : s.proceeds calls = true) :
    (s.afterCalls calls).Balanced (s.taken t calls) (s.unverified n calls) := by
  induction calls generalizing s t n with
  | nil => exact h
  | cons c rest ih =>
    obtain ⟨hc, hrest⟩ := Bool.and_eq_true_iff.1 hcalls
    exact ih (Call.balanced_after hs h c hc) (c.sound_after hs) hrest

/-- What the regions of `o`, its meter and the statistics of `s` say of each other, where `taken`
    bytes were allocated, and `unverified` of them since the last check. -/
structure AccountsAgree (s : Session) (o : Output) (taken unverified : Nat) : Prop where
  recorded : s.stats.mutable.bytes + s.stats.readOnly.bytes = taken
  growing : o.arena.mutable.packed = false → o.arena.mutable.top = bottomPadding + s.stats.mutable.bytes
  packed : o.arena.mutable.packed = true →
    IsLeast {t | bottomPadding + s.stats.mutable.bytes ≤ t ∧ s.settings.regionAlignment ∣ t}
      o.arena.mutable.top
  readOnly : o.arena.readOnly.used = s.stats.readOnly.bytes
  /-- So neither a check nor the switch to the read-only region subtracts more than there is. -/
  verified : o.meter.verifiedTop ≤ o.arena.top
  checked : ∀ estimate label,
    ((verifyEstimate estimate label).perform s).1 = .ok () ↔ unverified ≤ estimate

theorem Balanced.agree (h : s.Balanced t n) {o : Output} (ho : s.output? = some o) :
    s.AccountsAgree o t n where
  recorded := h.recorded
  growing := (h.output o ho).growing
  packed := (h.output o ho).packed
  readOnly := by rw [Region.used, (h.output o ho).readOnly, Nat.add_sub_cancel_left]
  verified := (h.output o ho).verified
  checked := verifyEstimate_eq_ok h ho

/-- The three accounts agree once the buffer is reserved, whatever `calls` there are as long as they
    proceed: no copying fails, and the archive is not shifted. They agree between the calls, and
    where the read-only objects are copied and the check that follows is still to be made. -/
theorem accounts_agree {host : Host} {reservations : Reservations} {settings : Settings}
    {mapped? : Option (AddrRange .mapped)} {alive : Bool}
    (hbegin : begin host reservations settings mapped? alive = .ok s) {calls : List Call}
    (hcalls : s.proceeds calls = true) {o : Output} (ho : (s.afterCalls calls).output? = some o) :
    let t := s.afterCalls calls
    t.AccountsAgree o (s.taken 0 calls) (s.unverified 0 calls) ∧
    ∀ tables, ((copyUnchecked tables).perform t).1 = .ok () →
      ∃ o', ((copyUnchecked tables).perform t).2.session.output? = some o' ∧
        ((copyUnchecked tables).perform t).2.session.AccountsAgree o'
          (s.taken 0 calls + t.need (t.books.sources .readOnly))
          (s.unverified 0 calls + t.need (t.books.sources .readOnly)) := by
  intro t
  have hs := sound_begin hbegin
  have hstart : s.Balanced 0 0 := by
    obtain ⟨-, d?, -, rfl⟩ := begin_eq_ok hbegin
    exact ⟨nofun, rfl, fun _ => rfl, nofun⟩
  have hbalanced : t.Balanced (s.taken 0 calls) (s.unverified 0 calls) := hstart.afterCalls hs calls hcalls
  have ht : t.Sound := (hs.develops calls).sound
  refine ⟨hbalanced.agree ho, fun tables hok => ?_⟩
  obtain ⟨⟨⟩, -, hout, hcopied⟩ | ⟨_, herror, -⟩ :=
    (triple_copyUnchecked_balanced ht hbalanced).perform rfl
  · obtain ⟨o', ho'⟩ := Option.ne_none_iff_exists'.1 hout
    exact ⟨o', ho', hcopied.agree ho'⟩
  · exact nomatch hok.symm.trans herror

/-- A session over the heap of a described object, with a buffer of units of 64 bytes. -/
def unitsFresh : Session :=
  fresh describedHeap.toHost ⟨⟨0x20000⟩, 0x1000, room_fits⟩ ⟨0x8000, 64, 0, false⟩ none

/-- The host allocates before and after the mutable objects are copied; one check fails, and one is passed. -/
def unitsCalls : List Call :=
  [.gather [0x100000000000], .reserveBuffer ⟨0, 0, 64⟩, .allocateOther 5, .verifyEstimate 7 "host",
    .verifyEstimate 8 "host", .copyMutable noTables, .allocateOther 12]

/-- Of the 56 bytes between the padding and `top = 72`, 48 were not checked yet. The read-only
    object goes to the next unit; with its eight bytes 56 are to be checked. -/
theorem accounts_agree_units :
    begin describedHeap.toHost ⟨⟨0x20000⟩, 0x1000, room_fits⟩ ⟨0x8000, 64, 0, false⟩ none false =
      .ok unitsFresh ∧
    unitsFresh.proceeds unitsCalls = true ∧
    (∃ o, (unitsFresh.afterCalls unitsCalls).output? = some o ∧ o.arena.mutable.top = 72 ∧
      (unitsFresh.afterCalls unitsCalls).AccountsAgree o 56 48) ∧
    ((copyUnchecked noTables).perform (unitsFresh.afterCalls unitsCalls)).1 = .ok () ∧
    ∃ o, ((copyUnchecked noTables).perform (unitsFresh.afterCalls unitsCalls)).2.session.output? = some o ∧
      o.arena.mutable.top = 128 ∧
      ((copyUnchecked noTables).perform (unitsFresh.afterCalls unitsCalls)).2.session.AccountsAgree o 64 56 := by
  have hbegin : begin describedHeap.toHost ⟨⟨0x20000⟩, 0x1000, room_fits⟩ ⟨0x8000, 64, 0, false⟩ none false =
      .ok unitsFresh := begin_fresh (by decide +kernel)
  have hcalls : unitsFresh.proceeds unitsCalls = true := by decide +kernel
  have hok : ((copyUnchecked noTables).perform (unitsFresh.afterCalls unitsCalls)).1 = .ok () :=
    eq_ok_of_toOption (by decide +kernel)
  have htop : (unitsFresh.afterCalls unitsCalls).output?.map (fun o => o.arena.mutable.top) = some 72 := by
    decide +kernel
  have htop' : ((copyUnchecked noTables).perform (unitsFresh.afterCalls unitsCalls)).2.session.output?.map
      (fun o => o.arena.mutable.top) = some 128 := by decide +kernel
  have htaken : unitsFresh.taken 0 unitsCalls = 56 := by decide +kernel
  have hunverified : unitsFresh.unverified 0 unitsCalls = 48 := by decide +kernel
  have hneed : (unitsFresh.afterCalls unitsCalls).need
      ((unitsFresh.afterCalls unitsCalls).books.sources .readOnly) = 8 := by decide +kernel
  obtain ⟨o, ho, ho72⟩ := Option.map_eq_some_iff.1 htop
  obtain ⟨hagree, hcopied⟩ := accounts_agree hbegin hcalls ho
  obtain ⟨o', ho', hagree'⟩ := hcopied noTables hok
  rw [htaken, hunverified] at hagree hagree'
  rw [hneed] at hagree'
  rw [ho', Option.map_some, Option.some_inj] at htop'
  exact ⟨hbegin, hcalls, ⟨o, ho, ho72, hagree⟩, hok, o', ho', htop', hagree'⟩

end Session

end SnapshotArchive
