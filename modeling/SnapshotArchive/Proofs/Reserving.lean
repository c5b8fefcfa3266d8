import Mathlib.Tactic.Common
import SnapshotArchive.Proofs.Copies
import SnapshotArchive.Session.Dispatch
import SnapshotArchive.Session.Slots

/-!
Reserving the buffer and filling it by hand. What can be reserved is the estimate as it is meant, for no
sum of it was cut short. A fresh output has room for the whole archive above its requested bottom; what
is allocated by hand grows it, and what is stored in a slot changes contents and marks alone.
-/

namespace SnapshotArchive

namespace SizeEstimate

variable {e : SizeEstimate} {a : Advisories} {k : Nat}

/-- The bytes to reserve as they are meant: objects, advisories `a` and slack, rounded up. -/
def exact (e : SizeEstimate) (a : Advisories) (alignment : Nat) : Nat :=
  roundUp (e.objectBytes + (a.stringTable + a.dictionary + a.other) + regions * alignment) alignment

/-- What is reserved is a multiple of `2 ^ k`, also where the sum is cut short. -/
theorem dvd_total (e : SizeEstimate) (a : Advisories) (k : Nat) : 2 ^ k ∣ e.total a (2 ^ k) := by
  unfold total
  cases hr : alignUp? (e.sum a (2 ^ k)) (2 ^ k) with
  | some r => exact (alignUp?_bounds hr).2.2
  | none =>
    rw [Option.getD_none]
    rcases Nat.le_total k 64 with hk | hk
    · exact Nat.dvd_sub (Nat.pow_dvd_pow 2 hk) (Nat.dvd_refl _)
    · have hle : addressLimit ≤ 2 ^ k := Nat.pow_le_pow_right Nat.two_pos hk
      rw [Nat.sub_eq_zero_of_le hle]
      exact Nat.dvd_zero _

/-- No sum that can be reserved, of at most `maxReservation` bytes, was cut short. -/
theorem total_eq_exact (hk : k < 64) (h : e.total a (2 ^ k) ≤ maxReservation) :
    e.total a (2 ^ k) = e.exact a (2 ^ k) := by
  have hhalf : 2 ^ k ≤ 2 ^ 63 := Nat.pow_le_pow_right (by decide) (by omega)
  unfold total at h ⊢
  cases hr : alignUp? (e.sum a (2 ^ k)) (2 ^ k) with
  | none =>
    -- what is left below the last multiple is too large to be reserved
    rw [hr, Option.getD_none] at h
    unfold maxReservation addressLimit at h
    omega
  | some r =>
    rw [hr, Option.getD_some] at h
    have hle := (alignUp?_bounds hr).1
    have hsum : e.sum a (2 ^ k) =
        e.objectBytes + (a.stringTable + a.dictionary + a.other) + regions * 2 ^ k := by
      unfold sum Advisories.tableBytes regions satAdd maxReservation maxBytes addressLimit at *
      omega
    rw [Option.getD_some, (alignUp?_eq_some.1 hr).2, exact, hsum]

/-- A size that can be reserved counts the objects, what the host builds itself, and the slack of `2
    ^ k` for each region. -/
theorem le_total (hlow : bottomPadding ≤ e.total a (2 ^ k)) (hshort : e.total a (2 ^ k) ≤ maxReservation) :
    e.objectBytes + a.other + regions * 2 ^ k ≤ e.total a (2 ^ k) := by
  have hk : k < 64 := by
    -- of a larger alignment the only multiple that can be reserved is zero
    by_contra hge
    have hpow : 2 ^ 64 ≤ 2 ^ k := Nat.pow_le_pow_right (by decide) (Nat.not_lt.1 hge)
    have hpos : 0 < e.total a (2 ^ k) := Nat.lt_of_lt_of_le (by decide) hlow
    have hle := Nat.le_of_dvd hpos (e.dvd_total a k)
    unfold maxReservation at hshort
    omega
  rw [total_eq_exact hk hshort]
  exact Nat.le_trans (by omega) (le_roundUp _ k)

/-- At least one unit of `2 ^ k` bytes is reserved, in whole words. -/
theorem total_bounds (hk : 3 ≤ k) (hlarge : 2 ^ k + (2 ^ k - 1) < addressLimit) :
    2 ^ k ≤ e.total a (2 ^ k) ∧ 8 ∣ e.total a (2 ^ k) := by
  refine ⟨?_, Nat.dvd_trans (Nat.pow_dvd_pow 2 hk) (e.dvd_total a k)⟩
  unfold total
  cases hr : alignUp? (e.sum a (2 ^ k)) (2 ^ k) with
  | none =>
    rw [Option.getD_none]
    omega
  | some r =>
    have hsum : 2 ^ k ≤ e.sum a (2 ^ k) := by
      unfold sum regions satAdd maxBytes
      omega
    rw [Option.getD_some]
    exact Nat.le_trans hsum (alignUp?_bounds hr).1

end SizeEstimate

namespace SessionM

open Session

/-- What reserving settles about the output `o`, with the advisories `a`. -/
structure Fresh (s : Session) (a : Advisories) (o : Output) : Prop where
  size : o.buffer.length = s.estimate.total a s.settings.regionAlignment
  short : o.buffer.length ≤ maxReservation
  started : Arena.start o.buffer.length s.settings.regionAlignment = .ok o.arena
  arena : o.arena.Sound
  current : o.arena.current = .mutable
  length : o.arena.length = o.buffer.length
  bottom : s.requestedBottom? = some o.requestedBottom.toNat
  room : o.requestedBottom.toNat + o.buffer.length < addressLimit
  buffer : o.buffer.bottom = s.reservations.bottom
  words : ∀ j, o.buffer.words.read j = 0
  marks : ∀ j, o.pointers.has j = false
  meter : o.meter = .start o.arena.top
  advisories : o.advisories = a

/-- A reservation is of `length` bytes if these are no fewer than `align`. -/
theorem reserve_eq_ok {r : Reservations} {length align : Nat} {b : Buffer}
    (h : Buffer.reserve r length align = .ok b) :
    b.bottom = r.bottom ∧ b.length = max length align ∧ b.words = .zero ∧
      max length align + (align - 1) < addressLimit ∧
      ∃ n, alignUp? (max length align) align = some n ∧ n ≤ maxReservation := by
  unfold Buffer.reserve at h
  dsimp only at h
  split at h
  · rename_i hcan
    cases h
    refine ⟨rfl, rfl, rfl, ?_⟩
    unfold Buffer.canReserve at hcan
    simp only [Bool.and_eq_true, Option.any_eq_true] at hcan
    obtain ⟨-, ⟨n, hn, hle⟩, -⟩ := hcan
    refine ⟨Nat.not_le.1 fun hbeyond => ?_, n, hn, of_decide_eq_true hle⟩
    rw [alignUp?_eq_none.2 hbeyond] at hn
    cases hn
  · cases h

theorem fresh_start {s : Session} {b : Buffer} {a : Advisories} {bottom : Addr .requested} {o : Output}
    {size : Nat} (hsettings : s.settings.validate = .ok ()) (hbottom : s.requestedBottom? = some bottom.toNat)
    (hroom : bottom.toNat + size < addressLimit)
    (hsize : size = s.estimate.total a s.settings.regionAlignment)
    (hb : Buffer.reserve s.reservations size s.settings.regionAlignment = .ok b)
    (ho : Output.start b s.settings.regionAlignment a bottom = .ok o) : Fresh s a o := by
  obtain ⟨k, hk, hk3, -⟩ := Settings.validate_eq_ok hsettings
  obtain ⟨hbase, hlength, hzero, hlarge, n, hn, hshort⟩ := reserve_eq_ok hb
  rw [hk] at hsize hlength hlarge hn ho
  have hn' := (alignUp?_bounds hn).1
  have hmax : 2 ^ k ≤ max size (2 ^ k) := Nat.le_max_right ..
  obtain ⟨hle, hdvd⟩ := SizeEstimate.total_bounds (e := s.estimate) (a := a) hk3 (by omega)
  rw [← hsize] at hle hdvd
  rw [Nat.max_eq_left hle] at hlength
  unfold Output.start at ho
  cases harena : Arena.start b.length (2 ^ k) with
  | error e => rw [harena] at ho; cases ho
  | ok arena =>
    rw [harena] at ho
    cases ho
    obtain ⟨hsound, halength, -, hcurrent⟩ := Arena.start_eq_ok hk3 (by rw [hlength]; exact hdvd) harena
    rw [← hk] at harena hsize
    exact ⟨hlength.trans hsize, by dsimp only; omega, harena, hsound, hcurrent, halength, hbottom,
      by rw [hlength]; exact hroom, hbase, fun j => by rw [hzero]; exact Words.read_zero j,
      fun j => Ledger.has_ofLength .., rfl, rfl⟩

/-- The place of an archive is the requested bottom, and `size` bytes fit above it. -/
theorem triple_placeArchive (s : Session) (size : Nat) :
    Triple (· = s) (placeArchive size)
      (fun a s' => s' = s ∧ s.requestedBottom? = some a.toNat ∧ a.toNat + size < addressLimit)
      (fun _ s' => s' = s) := by
  rintro r rfl
  unfold placeArchive refuseBase
  simp only [wp_bind, wp_session]
  cases hb : r.session.requestedBottom? with
  | none => simp only [wp_bind, wp_tell, wp_throw]
  | some bottom =>
    cases ht : requestedTop? (some bottom) size with
    | none => simp only [wp_bind, wp_tell, wp_throw]
    | some top =>
      have hroom : bottom + size < addressLimit := by
        unfold requestedTop? at ht
        by_contra hge
        rw [Option.bind_some, if_neg hge] at ht
        cases ht
      have hword : (UInt64.ofNat bottom).toNat = bottom :=
        UInt64.toNat_ofNat_of_lt' (Nat.lt_of_le_of_lt (Nat.le_add_right ..) hroom)
      dsimp only
      split
      · exact ⟨rfl, congrArg some hword.symm, by unfold Addr.toNat; rw [hword]; exact hroom⟩
      · simp only [wp_bind, wp_tell, wp_throw]

/-- Reserving adds a fresh output `o`, or changes nothing. -/
theorem triple_reserveBuffer {s : Session} (hs : s.settings.validate = .ok ()) (a : Advisories) :
    Triple (· = s) (reserveBuffer a)
      (fun _ s' => s.stage = .gathered ∧ ∃ o, Fresh s a o ∧
        s' = { s with output? := some o, stage := .reserved })
      (fun _ s' => s' = s) := by
  rintro r rfl
  unfold reserveBuffer
  rw [wp_bind, wp_requireStage]
  split
  · rename_i hstage
    simp only [wp_bind, wp_session]
    refine (Triple.forM (I := fun _ => (· = r.session)) (E := fun _ => (· = r.session))
      (fun event _ => Keeps.tell event) _).use rfl (fun _ r₁ h₁ => ?_) fun _ _ h => h
    refine (triple_placeArchive r₁.session _).use rfl (fun bottom r₂ h₂ => ?_)
      fun _ _ h => h.trans h₁
    obtain ⟨hs₂, hbottom, hroom⟩ := h₂
    rw [h₁] at hbottom hs₂
    rw [wp_ofBuild]
    cases hb : Buffer.reserve r.session.reservations
        (r.session.estimate.total a r.session.settings.regionAlignment)
        r.session.settings.regionAlignment with
    | error e => exact hs₂
    | ok b =>
      dsimp only
      rw [wp_tell, wp_ofBuild]
      cases ho : Output.start b r.session.settings.regionAlignment a bottom with
      | error e => exact hs₂
      | ok o =>
        dsimp only
        rw [wp_setOutput, wp_enter, hs₂]
        exact ⟨hstage, o, fresh_start hs hbottom hroom rfl hb ho, rfl⟩
  · rfl

/-- Allocating `n` bytes by hand takes fresh ones, and wants for room only where they do not fit. -/
theorem triple_allocateOther {s : Session}
    (ha : ∀ o, s.output? = some o → o.arena.Sound ∧ o.arena.length = o.buffer.length) (n : Nat) :
    Triple (· = s) (allocateOther n)
      (fun a s' => s.stage.before .wired = true ∧ ∃ o t stats, s.output? = some o ∧
        a = o.buffer.addrAt o.arena.top ∧ t = o.arena.top + allocatedBytes n ∧ o.arena.top + n ≤ t ∧
        t ≤ o.arena.currentRegion.limit ∧ 8 ∣ t ∧
        s' = { s with output? := some { o with arena := o.arena.advance t }, stats := stats })
      (fun f s' => s' = s ∧ (f.isShortage = true → s.stage.before .wired = true ∧ ∃ o, s.output? = some o ∧
        o.arena.currentRegion.limit < o.arena.top + allocatedBytes n)) := by
  rintro r rfl
  unfold allocateOther
  simp only [wp_bind, wp_session]
  split
  · exact ⟨rfl, nofun⟩
  · rename_i hstage
    rw [wp_bind, wp_openOutput]
    cases ho : r.session.output? with
    | none => exact ⟨rfl, nofun⟩
    | some o =>
      obtain ⟨hsound, hlength⟩ := ha o ho
      have hfits := o.buffer.fits
      dsimp only
      split
      · rw [wp_bind, wp_ofBuild]
        cases hal : o.arena.allocate n with
        | error e =>
          exact ⟨rfl, fun _ => ⟨by simpa using hstage, o, rfl, Arena.allocate_full hsound (by omega) hal⟩⟩
        | ok p =>
          obtain ⟨offset, arena⟩ := p
          obtain ⟨rfl, hle, hhigh, hdvd, rfl⟩ := Arena.allocate_eq_ok hsound hal
          simp only [wp_bind, wp_changeOutput, wp_update, wp_pure, ho, Option.map_some]
          exact ⟨by simpa using hstage, o, _, _, rfl, rfl, rfl, Nat.add_le_add_left hle _, hhigh, hdvd,
            rfl⟩
      · exact ⟨rfl, nofun⟩

end SessionM

namespace Output

/-- Contents and marks of `o` and `o'` may differ, but the places are the same. -/
structure SameRoom (o o' : Output) : Prop where
  arena : o'.arena = o.arena
  bottom : o'.buffer.bottom = o.buffer.bottom
  length : o'.buffer.length = o.buffer.length
  requested : o'.requestedBottom = o.requestedBottom

namespace SameRoom

variable {o o' o'' : Output}

theorem refl (o : Output) : o.SameRoom o := ⟨rfl, rfl, rfl, rfl⟩

theorem mark (h : o.SameRoom o') (offset : Nat) : o.SameRoom (o'.mark offset) := by
  rw [mark_eq]
  exact ⟨h.arena, h.bottom, h.length, h.requested⟩

theorem write (h : o.SameRoom o') (offset : Nat) (w : Word) : o.SameRoom (o'.write offset w) :=
  ⟨h.arena, h.bottom, h.length, h.requested⟩

theorem setPointer (h : o.SameRoom o') (offset : Nat) (w : Word) :
    o.SameRoom (o'.setPointer offset w) := (h.write offset w).mark offset

theorem clear (h : o.SameRoom o') {offset : Nat} (hc : o'.clear offset = .ok o'') :
    o.SameRoom o'' := by
  unfold Output.clear at hc
  split at hc
  · cases hc
    exact ⟨h.arena, h.bottom, h.length, h.requested⟩
  · cases hc

end SameRoom

end Output

namespace SessionM

open Session

/-- At most the contents of the output change from `s` to `s'`. -/
def Touches (s s' : Session) : Prop :=
  s' = s ∨ ∃ o o', s.output? = some o ∧ o.SameRoom o' ∧ s' = { s with output? := some o' }

theorem Touches.stage {s s' : Session} (h : Touches s s') : s'.stage = s.stage := by
  rcases h with rfl | ⟨_, _, -, -, rfl⟩ <;> rfl

/-- The operation `m` changes at most the contents of the output. -/
abbrev Touching {α : Type} (s : Session) (m : SessionM α) : Prop :=
  Triple (· = s) m (fun _ => Touches s) (fun _ => Touches s)

variable {s : Session}

/-- At most the word at the offset `n` changes, and its mark. -/
structure SlotChange (o o' : Output) (n : Nat) : Prop where
  room : o.SameRoom o'
  meter : o'.meter = o.meter
  advisories : o'.advisories = o.advisories
  words : ∀ j, j ≠ n / wordBytes → o'.buffer.words.read j = o.buffer.words.read j
  marks : ∀ j, j ≠ n / wordBytes → o'.pointers.has j = o.pointers.has j

theorem SlotChange.write (o : Output) (n : Nat) (w : Word) : SlotChange o (o.write n w) n :=
  ⟨(Output.SameRoom.refl o).write n w, rfl, rfl, fun _ hj => Words.read_write_ne _ _ (Ne.symm hj),
    fun _ _ => rfl⟩

theorem SlotChange.mark {o o' : Output} {n : Nat} (h : SlotChange o o' n) : SlotChange o (o'.mark n) n where
  room := h.room.mark n
  meter := by rw [Output.mark_eq]; exact h.meter
  advisories := by rw [Output.mark_eq]; exact h.advisories
  words := by rw [Output.buffer_mark]; exact h.words
  marks j hj := by
    rw [Output.has_mark, decide_eq_false hj, Bool.false_and, Bool.or_false]
    exact h.marks j hj

theorem SlotChange.refl (o : Output) (n : Nat) : SlotChange o o n :=
  ⟨.refl o, rfl, rfl, fun _ _ => rfl, fun _ _ => rfl⟩

/-- The slot at `n` is cleared by taking its mark away. -/
theorem clear_eq_ok {o o' : Output} {n : Nat} (h : o.clear n = .ok o') :
    o' = { o with pointers := o.pointers.erase (n / wordBytes) } := by
  unfold Output.clear at h
  split at h <;> cases h
  rfl

theorem SlotChange.clear {o o' o'' : Output} {n : Nat} (h : SlotChange o o' n) (hc : o'.clear n = .ok o'') :
    SlotChange o o'' n := by
  obtain rfl := clear_eq_ok hc
  refine ⟨h.room.clear hc, h.meter, h.advisories, h.words, fun j hj => ?_⟩
  change (o'.pointers.erase (n / wordBytes)).has j = _
  rw [Ledger.has_erase, decide_eq_true hj, Bool.and_true]
  exact h.marks j hj

/-- At most the word at `slot` changes, and its mark. -/
def SlotStep (slot : Addr .buffer) (s s' : Session) : Prop :=
  ∃ o o' n, s.output? = some o ∧ o.buffer.slotOffset slot = .ok n ∧ SlotChange o o' n ∧
    s' = { s with output? := some o' }

/-- The operation `m` changes at most the word at `slot`, or fails and changes nothing. -/
abbrev Slotting (slot : Addr .buffer) (s : Session) (m : SessionM Unit) : Prop :=
  Triple (· = s) m (fun _ => SlotStep slot s) (fun _ s' => s' = s)

theorem Slotting.touching {slot : Addr .buffer} {m : SessionM Unit} (h : Slotting slot s m) :
    Touching s m := by
  refine h.conseq (fun _ hs => hs) ?_ fun _ _ hs => Or.inl hs
  rintro _ s' ⟨o, o', n, ho, -, hchange, hs'⟩
  exact Or.inr ⟨o, o', ho, hchange.room, hs'⟩

/-- An operation that begins by looking for a `slot` of the buffer. -/
theorem triple_at (step : String) (slot : Addr .buffer) {f : Output → Nat → SessionM Unit}
    {Q : Session → Prop} (hf : ∀ o n, s.output? = some o → o.buffer.slotOffset slot = .ok n →
      Triple (· = s) (f o n) (fun _ => Q) (fun _ s' => s' = s)) :
    Triple (· = s) (do
      let o ← openOutput step
      let offset ← ofViolation (o.buffer.slotOffset slot)
      f o offset) (fun _ => Q) (fun _ s' => s' = s) := by
  rintro r rfl
  rw [wp_bind, wp_openOutput]
  cases ho : r.session.output? with
  | none => rfl
  | some o =>
    dsimp only
    split
    · rw [wp_bind, wp_ofViolation]
      cases hs : o.buffer.slotOffset slot with
      | error v => rfl
      | ok n => exact hf o n ho hs r rfl
    · rfl

variable {slot : Addr .buffer} {o o' : Output} {n : Nat}

theorem slotting_changeOutput {f : Output → Output} (ho : s.output? = some o)
    (hn : o.buffer.slotOffset slot = .ok n) (hchange : SlotChange o (f o) n) :
    Slotting slot s (changeOutput f) := by
  rintro r rfl
  rw [wp_changeOutput, ho]
  exact ⟨o, f o, n, ho, hn, hchange, rfl⟩

theorem slotting_clear (ho : s.output? = some o) (hn : o.buffer.slotOffset slot = .ok n)
    (hchange : SlotChange o o' n) : Slotting slot s (ofViolation (o'.clear n) >>= setOutput) := by
  rintro r rfl
  rw [wp_bind, wp_ofViolation]
  cases hc : o'.clear n with
  | error v => rfl
  | ok o'' => exact ⟨o, o'', n, ho, hn, hchange.clear hc, rfl⟩

theorem slotting_setAt (ho : s.output? = some o) (hn : o.buffer.slotOffset slot = .ok n) (w : Word) :
    Slotting slot s (changeOutput (·.setPointer n w)) :=
  slotting_changeOutput ho hn (SlotChange.write o n w).mark

theorem slotting_writeWord (slot : Addr .buffer) (w : Word) : Slotting slot s (writeWord slot w) :=
  triple_at _ slot fun o n ho hn => slotting_changeOutput ho hn (.write o n w)

theorem slotting_markPointer (slot : Addr .buffer) : Slotting slot s (markPointer slot) :=
  triple_at _ slot fun o n ho hn => slotting_changeOutput ho hn (SlotChange.refl o n).mark

theorem slotting_setPointer (slot value : Addr .buffer) : Slotting slot s (setPointer slot value) :=
  triple_at _ slot fun _ _ ho hn => slotting_setAt ho hn value.word

theorem slotting_clearPointer (slot : Addr .buffer) : Slotting slot s (clearPointer slot) :=
  triple_at _ slot fun o n ho hn => slotting_clear ho hn (.refl o n)

theorem triple_pointerTo (s : Session) (source? : Option Word) :
    Triple (· = s) (pointerTo source?) (fun _ s' => s' = s) (fun _ s' => s' = s) := by
  rintro r hr
  unfold pointerTo
  cases source? with
  | none => exact hr
  | some source =>
    simp only [wp_bind, wp_session, wp_ofViolation]
    cases r.session.catalog.resolve source <;> exact hr

theorem slotting_writePointer (slot : Addr .buffer) (source? : Option Word) :
    Slotting slot s (writePointer slot source?) := by
  rintro r rfl
  unfold writePointer
  simp only [wp_bind, wp_session]
  split
  · rfl
  rw [wp_bind]
  refine (triple_pointerTo _ source?).use rfl (fun w r' hr' => ?_) fun _ _ h => h
  refine triple_at "write_pointer_in_buffer" slot (f := fun o n =>
    if w = 0 then ofViolation ((o.write n 0).clear n) >>= setOutput
    else changeOutput (·.setPointer n w)) (fun o n ho hn => ?_) r' hr'
  split
  · exact slotting_clear ho hn (.write o n 0)
  · exact slotting_setAt ho hn w

/-- The meter of the output starts to count again in `s'`. -/
def Metered (s s' : Session) : Prop :=
  ∃ o, s.output? = some o ∧ s' = { s with output? := some { o with meter := .start o.arena.top } }

theorem Metered.touches {s' : Session} (h : Metered s s') : Touches s s' := by
  obtain ⟨o, ho, rfl⟩ := h
  exact Or.inr ⟨o, { o with meter := .start o.arena.top }, ho, ⟨rfl, rfl, rfl, rfl⟩, rfl⟩

/-- More bytes were used since the last check than `estimate`. -/
def Overused (s : Session) (estimate : Nat) : Prop :=
  ∃ o, s.output? = some o ∧ estimate < o.meter.used o.arena.top

theorem triple_verifyEstimate (estimate : Nat) (label : String) :
    Triple (· = s) (verifyEstimate estimate label) (fun _ => Metered s)
      (fun f s' => s' = s ∧ (f.isShortage = true → Overused s estimate)) := by
  rintro r rfl
  unfold verifyEstimate
  rw [wp_bind, wp_openOutput]
  cases ho : r.session.output? with
  | none => exact ⟨rfl, nofun⟩
  | some o =>
    dsimp only
    split
    · rw [wp_bind, wp_tell, wp_bind, wp_ofViolation]
      cases hverify : o.meter.verify o.arena.top estimate label with
      | error v =>
        refine ⟨rfl, fun _ => ⟨o, ho, ?_⟩⟩
        by_contra hle
        unfold UsageMeter.verify at hverify
        rw [if_neg hle] at hverify
        cases hverify
      | ok meter =>
        dsimp only
        rw [wp_changeOutput]
        unfold UsageMeter.verify at hverify
        dsimp only at hverify
        split at hverify <;> cases hverify
        exact ⟨o, ho, by rw [ho]; rfl⟩
    · exact ⟨rfl, nofun⟩

theorem touching_verifyEstimate (estimate : Nat) (label : String) :
    Touching s (verifyEstimate estimate label) :=
  (triple_verifyEstimate estimate label).conseq (fun _ h => h) (fun _ _ h => h.touches)
    fun _ _ h => Or.inl h.1

end SessionM

end SnapshotArchive
