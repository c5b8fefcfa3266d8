import Mathlib.Tactic.Common
import SnapshotArchive.Proofs.Calls
import SnapshotArchive.Proofs.Images
import SnapshotArchive.Proofs.Surveying

/-!
The reserved buffer is large enough. The estimate covers the copies of all listed objects and the
advisories cover what is allocated by hand; one unit of the alignment for each region makes up for the
padding at the bottom and for what packing wastes. So at all times there is room for what is still to come,
and with it no more is used than was estimated. A copy that fails keeps the bytes that it took: where the
mutable objects are copied again after that, these bytes have to be advised like those that are allocated by
hand (`Session.wasted`), or there may be no room for them (`retried_copies_short`).
-/

namespace SnapshotArchive

open SessionM

/-- What packing may waste before allocation in `a` has come to its last region. -/
def Arena.waste (a : Arena) : Nat :=
  match a.current with
  | .mutable => a.alignment - wordBytes
  | .readOnly => 0

/-- There is room in `o` for some `bytes` more, and with them no more is used than was estimated. -/
structure Output.Affords (e : SizeEstimate) (o : Output) (bytes : Nat) : Prop where
  limit : o.arena.currentRegion.limit = o.arena.length
  room : o.arena.top + bytes + o.arena.waste ≤ o.arena.length
  metered : o.meter.used o.arena.top + bytes ≤ e.objectBytes + o.advisories.other
  bounded : e.objectBytes + o.advisories.other < addressLimit

namespace Output.Affords

variable {e : SizeEstimate} {o o' : Output} {m n : Nat}

theorem mono (h : o.Affords e n) (hle : m ≤ n) : o.Affords e m :=
  ⟨h.limit, by have := h.room; omega, by have := h.metered; omega, h.bounded⟩

/-- The `n` bytes that are afforded fit. -/
theorem fits (h : o.Affords e n) : o.arena.top + n ≤ o.arena.currentRegion.limit := by
  have hroom := h.room
  rw [h.limit]
  omega

/-- The check after the last copy finds no more used than was estimated, with `advisories.other`. -/
theorem verified (h : o.Affords e n) :
    o.meter.used o.arena.top ≤ satAdd e.objectBytes o.advisories.other := by
  have hmetered := h.metered
  rw [satAdd_of_lt h.bounded]
  omega

/-- Only the arena, the meter and the advisories count, not contents and marks. -/
theorem frame (h : o.Affords e n) (harena : o'.arena = o.arena) (hmeter : o'.meter = o.meter)
    (hadvisories : o'.advisories = o.advisories) : o'.Affords e n :=
  ⟨by rw [harena]; exact h.limit, by rw [harena]; exact h.room,
    by rw [harena, hmeter, hadvisories]; exact h.metered, by rw [hadvisories]; exact h.bounded⟩

/-- Of the `m + n` bytes that were afforded, `m` are taken. -/
theorem grows (h : o.Affords e (m + n)) (hg : o.Grows o') (htop : o'.arena.top ≤ o.arena.top + m) :
    o'.Affords e n := by
  obtain ⟨t, hlow, -, -, harena⟩ := hg.arena
  have hroom := h.room
  have hmetered := h.metered
  have hwaste : (o.arena.advance t).waste = o.arena.waste := by
    unfold Arena.waste
    rw [Arena.current_advance, Arena.alignment_advance]
  rw [harena, Arena.top_advance] at htop
  refine ⟨?_, ?_, ?_, by rw [hg.advisories]; exact h.bounded⟩
  · rw [harena, Arena.currentRegion_advance, Arena.length_advance]
    exact h.limit
  · rw [harena, Arena.top_advance, Arena.length_advance, hwaste]
    omega
  · have hused := o.meter.used_le htop
    rw [harena, Arena.top_advance, hg.meter, hg.advisories]
    omega

/-- A check that was passed counts anew. -/
theorem restart (h : o.Affords e n) : Affords e { o with meter := .start o.arena.top } n := by
  have hmetered := h.metered
  refine ⟨h.limit, h.room, ?_, h.bounded⟩
  rw [UsageMeter.used_start]
  dsimp only
  omega

/-- What packing wasted was afforded, and what was used before still counts. -/
theorem switch {arena : Arena} (h : o.Affords e n) (ha : o.arena.Sound)
    (hlength : o.arena.length < addressLimit) (he : o.arena.startReadOnly = .ok arena) :
    Affords e { o with arena, meter := o.meter.switchRegion o.arena.top arena.top } n := by
  obtain ⟨hc, hc', -, hlen, -⟩ := Arena.startReadOnly_eq_ok ha he
  obtain ⟨htop, hlimit⟩ := Arena.startReadOnly_room ha hlength he
  have hroom := h.room
  have hmetered := h.metered
  refine ⟨hlimit, ?_, ?_, h.bounded⟩
  · unfold Arena.waste at *
    rw [hc] at hroom
    dsimp only at hroom ⊢
    rw [hc', hlen]
    dsimp only
    omega
  · rw [UsageMeter.used_switchRegion]
    exact hmetered

end Output.Affords

namespace Session

/-- The objects of the region that follows after a region. -/
def later (s : Session) : RegionKind → List Word
  | .mutable => s.books.sources .readOnly
  | .readOnly => []

/-- The copies of `rest` are afforded, then those of the region that follows, and some `bytes`
    more. -/
def Affords (bytes : Nat) (rest : List Word) (s : Session) : Prop :=
  ∃ o, s.output? = some o ∧ o.Affords s.estimate (s.need (rest ++ s.later o.arena.current) + bytes)

/-- The offset that the current region of the buffer of `s` has grown to. -/
def top (s : Session) : Nat := (s.output?.map (·.arena.top)).getD 0

/-- The mutable objects if they are still to be copied, where `again` says whether they may be. -/
def ahead (again : Bool) (s : Session) : List Word :=
  if again = true ∧ s.stage = .reserved then s.books.sources .mutable else []

/-- A session that will not want for room: all that is still to come, and `bytes` for the host, is
    afforded until wiring is done. -/
structure Funded (again : Bool) (bytes : Nat) (s : Session) : Prop where
  sound : s.Sound
  reserved : 2 ≤ s.stage.rank
  affords : s.stage.before .wired = true → s.Affords bytes (s.ahead again)

variable {s s₁ s' : Session} {bytes : Nat} {w : Word} {rest : List Word}

theorem need_cons (s : Session) (w : Word) (ws : List Word) :
    s.need (w :: ws) = s.footprintAt w + s.need ws := rfl

theorem need_append (s : Session) (xs ys : List Word) : s.need (xs ++ ys) = s.need xs + s.need ys := by
  unfold need
  rw [List.map_append, List.sum_append]

theorem footprintAt_of_get? {e : SourceEntry} (he : s.catalog.get? w = some e) :
    s.footprintAt w = e.footprint := by
  unfold footprintAt
  rw [he]
  rfl

theorem Affords.tail (h : s.Affords bytes rest) : s.Affords bytes [] := by
  obtain ⟨o, ho, hafford⟩ := h
  refine ⟨o, ho, hafford.mono ?_⟩
  rw [List.nil_append, need_append]
  omega

/-- The output `o` may change to `o'` as long as that affords no less. -/
theorem Affords.withOutput {o o' : Output} (h : s.Affords bytes rest) (ho : s.output? = some o)
    (hcurrent : o'.arena.current = o.arena.current)
    (hafford : ∀ n, o.Affords s.estimate n → o'.Affords s.estimate n) :
    Affords bytes rest { s with output? := some o' } := by
  obtain ⟨o₁, ho₁, h₁⟩ := h
  obtain rfl : o = o₁ := Option.some_inj.1 (ho.symm.trans ho₁)
  refine ⟨o', rfl, hafford _ ?_⟩
  rw [hcurrent]
  exact h₁

/-- The copy of `w` is afforded with those of `rest` as so many bytes more are. -/
theorem affords_cons (s : Session) (w : Word) (rest : List Word) :
    s.Affords bytes (w :: rest) ↔ s.Affords (s.footprintAt w + bytes) rest := by
  have hsum : ∀ kind, s.need (w :: rest ++ s.later kind) + bytes =
      s.need (rest ++ s.later kind) + (s.footprintAt w + bytes) := fun kind => by
    rw [List.cons_append, need_cons]
    omega
  unfold Affords
  simp only [hsum]

/-- The session `s'` is `s` with an output that has grown to `o'` from `o`; what the copies take is
    as it was. -/
structure Spends (s s' : Session) (o o' : Output) : Prop where
  before : s.output? = some o
  grows : o.Grows o'
  change : ∃ catalog stats, (∀ v, (catalog.get? v).map (·.footprint) = (s.catalog.get? v).map (·.footprint)) ∧
    s' = { s with output? := some o', catalog := catalog, stats := stats }

namespace Spends

variable {o o' o'' : Output}

theorem after (h : Spends s s' o o') : s'.output? = some o' := by
  obtain ⟨_, _, -, rfl⟩ := h.change
  rfl

theorem need (h : Spends s s' o o') : s'.need = s.need := by
  obtain ⟨catalog, stats, hget, rfl⟩ := h.change
  unfold Session.need footprintAt
  simp only [hget]

theorem later (h : Spends s s' o o') : s'.later = s.later := by
  obtain ⟨_, _, -, rfl⟩ := h.change
  exact funext fun kind => by cases kind <;> rfl

theorem refl (hs : s.Sound) (ho : s.output? = some o) : Spends s s o o :=
  ⟨ho, (Output.Extended.refl (hs.filled o ho).arena).grows, s.catalog, s.stats, fun _ => rfl, by rw [← ho]⟩

theorem trans (h : Spends s s₁ o o') (h' : Spends s₁ s' o' o'') : Spends s s' o o'' := by
  obtain ⟨_, _, hget, rfl⟩ := h.change
  obtain ⟨catalog, stats, hget', rfl⟩ := h'.change
  exact ⟨h.before, h.grows.trans h'.grows, catalog, stats, fun v => (hget' v).trans (hget v), rfl⟩

/-- Of the bytes that were afforded, `m` at most are taken. -/
theorem affords {m : Nat} (h : Spends s s' o o') (hafford : s.Affords (m + bytes) rest)
    (htop : o'.arena.top ≤ o.arena.top + m) : s'.Affords bytes rest := by
  obtain ⟨o₁, ho₁, hroom⟩ := hafford
  obtain rfl : o = o₁ := Option.some_inj.1 (h.before.symm.trans ho₁)
  have hcurrent : o'.arena.current = o.arena.current := by
    obtain ⟨t, -, -, -, harena⟩ := h.grows.arena
    rw [harena, Arena.current_advance]
  rw [← Nat.add_assoc, Nat.add_right_comm, Nat.add_comm] at hroom
  obtain ⟨hneed, hlater⟩ := And.intro h.need h.later
  obtain ⟨catalog, stats, -, rfl⟩ := h.change
  refine ⟨o', rfl, ?_⟩
  rw [hneed, hlater, hcurrent]
  exact hroom.grows h.grows htop

end Spends

theorem ahead_eq_nil {again : Bool} (h : s.stage ≠ .reserved) : s.ahead again = [] :=
  if_neg fun hboth => h hboth.2

namespace Funded

variable {again : Bool}

/-- Where no mutable objects are left to be copied they may be copied as well. -/
theorem anew (h : s.Funded false bytes) (hstage : s.stage ≠ .reserved) (again : Bool) :
    s.Funded again bytes :=
  ⟨h.sound, h.reserved, fun hopen => by
    have hafford := h.affords hopen
    rw [ahead_eq_nil hstage] at hafford ⊢
    exact hafford⟩

theorem mono {fewer : Nat} (h : s.Funded again bytes) (hle : fewer ≤ bytes) : s.Funded again fewer := by
  refine ⟨h.sound, h.reserved, fun hopen => ?_⟩
  obtain ⟨o, ho, hafford⟩ := h.affords hopen
  exact ⟨o, ho, hafford.mono (Nat.add_le_add_left hle _)⟩

theorem never (h : s.Funded again bytes) : s.Funded false bytes :=
  ⟨h.sound, h.reserved, fun hopen => (h.affords hopen).tail⟩

theorem withOutput {o o' : Output} (h : s.Funded again bytes)
    (hs : Session.Sound { s with output? := some o' }) (ho : s.output? = some o)
    (hcurrent : o'.arena.current = o.arena.current)
    (hafford : ∀ n, o.Affords s.estimate n → o'.Affords s.estimate n) :
    Funded again bytes { s with output? := some o' } :=
  ⟨hs, h.reserved, fun hopen => (h.affords hopen).withOutput ho hcurrent hafford⟩

/-- The mutable objects must not be copied any more, or are not left to be copied. -/
theorem of_affords (hs : s.Sound) (hrank : 2 ≤ s.stage.rank) (h : s.Affords bytes [])
    (hdone : s.stage ≠ .reserved) : s.Funded again bytes :=
  ⟨hs, hrank, fun _ => by rw [ahead_eq_nil hdone]; exact h⟩

end Funded

end Session

namespace SessionM

open Session

variable {s s' : Session} {bytes : Nat} {w : Word} {rest : List Word} {again : Bool}
  {tables : TableProvider}

/-- A fresh output `o` affords the `n` bytes that the estimate covers, and what the host builds
    itself. -/
theorem Fresh.affords {a : Advisories} {o : Output} (h : Fresh s a o) {n : Nat}
    (hcovers : s.estimate.Covers n) : o.Affords s.estimate (n + a.other) := by
  obtain ⟨k, hk, halign⟩ := h.arena.alignment
  obtain ⟨htop, hlimit, hsettings⟩ := Arena.start_room h.started
  have hsize := h.size
  rw [← hsettings, halign] at hsize
  have hlow : bottomPadding ≤ o.buffer.length := by
    rw [← h.length]
    exact Nat.le_trans h.arena.padding_le_top h.arena.top_le_length
  have htotal := SizeEstimate.le_total (e := s.estimate) (a := a) (hsize ▸ hlow) (hsize ▸ h.short)
  rw [← hsize] at htotal
  have hshort := h.short
  have hwords : 2 ^ 3 ≤ 2 ^ k := Nat.pow_le_pow_right (by decide) hk
  have hcount : n ≤ s.estimate.objectBytes := by
    unfold SizeEstimate.Covers maxReservation maxBytes addressLimit at *
    omega
  refine ⟨hlimit.trans h.length.symm, ?_, ?_, ?_⟩
  · unfold Arena.waste
    rw [h.current, htop, h.length, halign]
    dsimp only
    unfold bottomPadding SizeEstimate.regions wordBytes at *
    omega
  · rw [h.meter, h.advisories, UsageMeter.used_start]
    omega
  · rw [h.advisories]
    unfold maxReservation addressLimit at *
    omega

/-- The copy of `w` takes the `s.footprintAt w` bytes that its object needs. -/
theorem CopyStep.spends (hstep : CopyStep tables w s s') :
    ∃ o o', Spends s s' o o' ∧ o'.arena.top = o.arena.top + s.footprintAt w := by
  obtain ⟨e, o, o', offset, target, catalog, stats, ho, he, -, -, hdone, hget, rfl⟩ := hstep
  refine ⟨o, o', ⟨ho, hdone.grows, catalog, stats, fun v => ?_, rfl⟩, ?_⟩
  · rw [hget]
    split
    · rename_i hv
      rw [← hv, he]
      rfl
    · rfl
  · rw [footprintAt_of_get? he]
    exact hdone.top

/-- A copy that fails takes no more than that, and wants for room only where that does not fit. -/
theorem CopyHalt.spends {f : Failure} (hhalt : CopyHalt tables w s f s') (hs : s.Sound) {o : Output}
    (ho : s.output? = some o) :
    ∃ o', Spends s s' o o' ∧ o'.arena.top ≤ o.arena.top + s.footprintAt w ∧
      (f.isShortage = true → o.arena.currentRegion.limit < o.arena.top + s.footprintAt w) := by
  obtain ⟨rfl, hplain⟩ | ⟨e, o₁, he, ho₁, o', catalog, hstop, hget, rfl⟩ := hhalt
  · exact ⟨o, .refl hs ho, Nat.le_add_right .., fun hshort => nomatch hplain.symm.trans hshort⟩
  obtain rfl : o = o₁ := Option.some_inj.1 (ho.symm.trans ho₁)
  rw [footprintAt_of_get? he]
  exact ⟨o', ⟨ho, hstop.grows, catalog, s.stats, fun v => by rw [hget], rfl⟩, hstop.top, hstop.shortage⟩

theorem CopyStep.affords (hstep : CopyStep tables w s s') (h : s.Affords bytes (w :: rest)) :
    s'.Affords bytes rest := by
  obtain ⟨o, o', hspends, htop⟩ := hstep.spends
  exact hspends.affords ((s.affords_cons w rest).1 h) (Nat.le_of_eq htop)

/-- A copy of `w` that was afforded does not want for room, and without it all others are afforded
    still. -/
theorem CopyHalt.affords {f : Failure} (hhalt : CopyHalt tables w s f s') (hs : s.Sound)
    (h : s.Affords bytes (w :: rest)) : f.isShortage = false ∧ s'.Affords bytes [] := by
  obtain ⟨o, ho, hafford⟩ := h
  obtain ⟨o', hspends, htop, hshortage⟩ := hhalt.spends hs ho
  refine ⟨Bool.eq_false_iff.2 fun hshort => ?_,
    (hspends.affords ((s.affords_cons w rest).1 ⟨o, ho, hafford⟩) htop).tail⟩
  have hfits := hafford.fits
  have hfull := hshortage hshort
  rw [List.cons_append, need_cons] at hfits
  omega

/-- A replaced object `former` is not copied, so no bytes are taken. -/
theorem AliasStep.affords {former substitute : Word} (hstep : AliasStep former substitute s s')
    (hcurrent : ∀ o, s.output? = some o → o.arena.current = .readOnly) (h : s.Affords bytes []) :
    s'.Affords bytes [] := by
  obtain ⟨_, _, -, -, -, rfl⟩ := hstep
  obtain ⟨o, ho, hafford⟩ := h
  refine ⟨o, ho, ?_⟩
  rw [hcurrent o ho] at hafford ⊢
  exact hafford

/-- The read-only objects come next: `bytes` more are afforded still. -/
theorem SwitchStep.affords (hstep : SwitchStep s s') (hs : s.Sound) (h : s.Affords bytes []) :
    s'.Affords bytes (s'.books.sources .readOnly) := by
  obtain ⟨o, arena, ho, harena, rfl⟩ := hstep
  obtain ⟨o₁, ho₁, hafford⟩ := h
  obtain rfl : o = o₁ := Option.some_inj.1 (ho.symm.trans ho₁)
  have hf := hs.filled o ho
  have hfits := o.buffer.fits
  have hlength := hf.length
  obtain ⟨hc, hc', -⟩ := Arena.startReadOnly_eq_ok hf.arena harena
  rw [hc] at hafford
  refine ⟨_, rfl, ?_⟩
  dsimp only
  rw [hc', show (Session.later _ .readOnly) = [] from rfl, List.append_nil]
  exact hafford.switch hf.arena (by omega) harena

theorem Metered.affords (hmeter : Metered s s') (h : s.Affords bytes rest) : s'.Affords bytes rest := by
  obtain ⟨o, ho, rfl⟩ := hmeter
  exact h.withOutput ho rfl fun _ => Output.Affords.restart

theorem Metered.funded (hmeter : Metered s s') (h : s.Funded again bytes) : s'.Funded again bytes := by
  have hs := hmeter.touches.sound h.sound
  obtain ⟨o, ho, rfl⟩ := hmeter
  exact h.withOutput hs ho rfl fun _ => Output.Affords.restart

theorem SlotStep.funded {slot : Addr .buffer} (hstep : SlotStep slot s s') (h : s.Funded again bytes) :
    s'.Funded again bytes := by
  obtain ⟨o, o', n, ho, -, hchange, rfl⟩ := hstep
  have hs := Touches.sound (Or.inr ⟨o, o', ho, hchange.room, rfl⟩) h.sound
  exact h.withOutput hs ho (by rw [hchange.room.arena]) fun _ hafford =>
    hafford.frame hchange.room.arena hchange.meter hchange.advisories

theorem WireStep.funded {l : CopyList} (hstep : WireStep l w s s') (h : s.Funded again bytes) :
    s'.Funded again bytes := by
  have hs := hstep.touches.sound h.sound
  obtain ⟨o, e, target, base, n, word, ho, -, -, -, -, rfl⟩ := hstep
  have hchange := (SlotChange.write o (base + n) word).mark
  exact h.withOutput hs ho (congrArg Arena.current hchange.room.arena) fun _ hafford =>
    hafford.frame hchange.room.arena hchange.meter hchange.advisories

/-- A step that has been made, at the stage `t`, is refused and changes nothing. -/
theorem keeps_funded_outOfOrder {α : Type} {t : Stage} {step : String} {m : Unit → SessionM α}
    (ht : t.rank < 2) : Keeps (Funded again bytes) (requireStage t step >>= m) := by
  refine Keeps.ofStage fun r hr => ?_
  have hrank := hr.1.reserved
  rw [hr.2] at hrank
  omega

theorem keeps_funded_slotting {slot : Addr .buffer} {m : SessionM Unit} (hm : ∀ s, Slotting slot s m) :
    Keeps (Funded again bytes) m :=
  fun r h => (hm r.session).use rfl (fun _ _ hstep => hstep.funded h) fun _ r' h' => by rw [h']; exact h

theorem keeps_funded_verifyEstimate (estimate : Nat) (label : String) :
    Keeps (Funded again bytes) (verifyEstimate estimate label) :=
  fun r h => (triple_verifyEstimate estimate label).use rfl (fun _ _ hmeter => hmeter.funded h)
    fun _ r' h' => by rw [h'.1]; exact h

theorem keeps_funded_recordReplaced (former substitute : Word) :
    Keeps (Funded again bytes) (recordReplaced former substitute) := by
  intro r h
  refine ((keeps_recordReplaced former substitute).and
    (triple_recordReplaced r.session former substitute)).use ⟨h.sound, rfl⟩ ?_ fun _ r' h' => by
      rw [h'.2]
      exact h
  rintro _ r' ⟨hs, hrank, hstep⟩
  obtain ⟨hstage, -⟩ := hstep.stage
  have hdone : r.session.stage ≠ .reserved := fun heq => absurd hrank (by rw [heq]; decide)
  refine ⟨hs, by rw [hstage]; exact h.reserved, fun hopen => ?_⟩
  have hafford := h.affords (by rw [← hstage]; exact hopen)
  rw [ahead_eq_nil hdone] at hafford
  rw [ahead_eq_nil (by rw [hstage]; exact hdone)]
  exact hstep.affords (fun o ho => (h.sound.filled o ho).switched hrank) hafford

theorem keeps_funded_wire : Keeps (Funded again bytes) wire := by
  refine Keeps.ofStage ((triple_wire_stage (C := Funded again bytes)
    fun _ _ _ _ _ hC hstep => hstep.funded hC).conseq (fun _ hs => ⟨hs.1.sound, hs.2, hs.1⟩) ?_
    fun _ _ hs => hs.2.2)
  rintro _ s ⟨s₁, -, rfl, hs⟩
  exact ⟨hs, show 2 ≤ 5 by decide, nofun⟩

theorem keeps_funded_relocate : Keeps (Funded again bytes) relocate := by
  refine Keeps.ofStage (t := .wired) fun r hr => ?_
  obtain ⟨h, hstage⟩ := hr
  obtain ⟨o, ho⟩ := Sound.output_of_rank h.sound (by rw [hstage]; decide)
  have hlast : ∀ s : Session, s.Sound → s.stage = .wired ∨ s.stage = .relocated →
      s.Funded again bytes := by
    rintro s hs (hstage | hstage)
    · exact ⟨hs, by rw [hstage]; decide, by rw [hstage]; nofun⟩
    · exact ⟨hs, by rw [hstage]; decide, by rw [hstage]; nofun⟩
  refine (keeps_relocate.and (triple_relocate_halted h.sound ho hstage)).use ⟨h.sound, rfl⟩ ?_ ?_
  · rintro _ r' ⟨hs, o', -, hr'⟩
    exact hlast _ hs (Or.inr (by rw [hr']))
  · rintro _ r' ⟨hs, i, o', -, -, hr'⟩
    exact hlast _ hs (Or.inl (by rw [hr']; exact hstage))

/-- The `allocatedBytes n` that were set aside for the call are taken. -/
theorem triple_allocateOther_funded (n : Nat) :
    Triple (Funded again (allocatedBytes n + bytes)) (allocateOther n) (fun _ => Funded again bytes)
      (fun f s => Funded again bytes s ∧ f.isShortage = false) := by
  intro r h
  have hafforded : r.session.stage.before .wired = true → ∀ o, r.session.output? = some o →
      o.Affords r.session.estimate (allocatedBytes n +
        (r.session.need (r.session.ahead again ++ r.session.later o.arena.current) + bytes)) := by
    intro hopen o ho
    obtain ⟨o₁, ho₁, hafford⟩ := h.affords hopen
    obtain rfl : o = o₁ := Option.some_inj.1 (ho.symm.trans ho₁)
    exact hafford.mono (by omega)
  refine ((keeps_allocateOther n).and (triple_allocateOther h.sound.arenas n)).use ⟨h.sound, rfl⟩ ?_ ?_
  · rintro _ r' ⟨hs, hopen, o, t, stats, ho, -, ht, hlow, hhigh, hdvd, hr'⟩
    rw [hr'] at hs ⊢
    refine ⟨hs, h.reserved, fun _ => ⟨_, rfl, ?_⟩⟩
    have hgrown := (hafforded hopen o ho).grows (Output.grows_advance (by omega) hhigh hdvd)
      (by rw [Arena.top_advance, ht])
    dsimp only
    rw [Arena.current_advance]
    exact hgrown
  · rintro f r' ⟨-, hr', hshort⟩
    rw [hr']
    refine ⟨⟨h.sound, h.reserved, fun hopen => ?_⟩, Bool.eq_false_iff.2 fun hf => ?_⟩
    · obtain ⟨o, ho⟩ := Sound.output_of_rank h.sound h.reserved
      exact ⟨o, ho, (hafforded hopen o ho).mono (Nat.le_add_left ..)⟩
    · obtain ⟨hopen, o, ho, hfull⟩ := hshort hf
      have hfits := (hafforded hopen o ho).fits
      omega

/-- The mutable objects are copied, or some of them are and the others must not be any more. -/
theorem triple_copyMutable_funded :
    Triple (Funded true bytes) (copyMutable tables) (fun _ => Funded false bytes)
      (fun f s => Funded false bytes s ∧ f.isShortage = false) := by
  refine Triple.ofStage ((triple_copyMutable (C := Session.Affords bytes)
    (F := fun f s => f.isShortage = false ∧ s.Affords bytes [])
    (fun _ _ _ _ _ hC hstep _ => hstep.affords hC)
    fun _ _ _ _ _ hcopying hC hhalt => hhalt.affords hcopying.sound hC).conseq
    ?_ ?_ ?_) fun _ hs _ => ⟨hs.never, rfl⟩
  · rintro s ⟨h, hstage⟩
    have hafford := h.affords (by rw [hstage]; decide)
    unfold ahead at hafford
    rw [if_pos ⟨rfl, hstage⟩] at hafford
    exact ⟨h.sound, hstage, hafford⟩
  · rintro _ s ⟨s₁, -, hC, rfl, hs⟩
    exact .of_affords hs (show 2 ≤ 3 by decide) hC nofun
  · rintro f s ⟨hs, hstage, hf, hC⟩
    exact ⟨⟨hs, by rw [hstage]; decide, fun _ => hC⟩, hf⟩

/-- Copying the mutable objects does nothing but take room, where it fails as well. -/
theorem triple_copyMutable_spends (tables : TableProvider) (hs : s.Sound) (hstage : s.stage = .reserved) :
    Triple (· = s) (copyMutable tables) (fun _ s' => s'.stage = .mutableCopied)
      (fun _ s' => s'.stage = .reserved ∧ ∃ o o', Spends s s' o o') := by
  obtain ⟨o, ho⟩ := Sound.output_of_rank hs (by rw [hstage]; decide)
  refine (triple_copyMutable (C := fun _ s' => ∃ o', Spends s s' o o')
    (F := fun _ s' => ∃ o', Spends s s' o o')
    (fun _ _ _ _ _ hC hstep _ => ?_) fun _ _ _ _ _ hcopying hC hhalt => ?_).conseq
    ?_ ?_ fun _ _ h => ⟨h.2.1, o, h.2.2⟩
  · obtain ⟨o₁, hspent⟩ := hC
    obtain ⟨o₂, o₃, hspends, -⟩ := hstep.spends
    obtain rfl : o₁ = o₂ := Option.some_inj.1 (hspent.after.symm.trans hspends.before)
    exact ⟨o₃, hspent.trans hspends⟩
  · obtain ⟨o₁, hspent⟩ := hC
    obtain ⟨o₂, hspends, -⟩ := hhalt.spends hcopying.sound hspent.after
    exact ⟨o₂, hspent.trans hspends⟩
  · rintro _ rfl
    exact ⟨hs, hstage, o, .refl hs ho⟩
  · rintro _ _ ⟨s₁, -, -, rfl, -⟩
    rfl

/-- The read-only objects are copied with `tables`, and the check that follows is passed. -/
theorem triple_copyReadOnly_funded :
    Triple (Funded again bytes) (copyReadOnly tables) (fun _ => Funded again bytes)
      (fun f s => Funded again bytes s ∧ f.isShortage = false) := by
  refine Triple.ofStage ((triple_copyReadOnly (B := Session.Affords bytes [])
    (C := Session.Affords bytes) (F := fun f s => f.isShortage = false ∧ s.Affords bytes [])
    (fun _ _ hB hf => ⟨hf, hB⟩)
    (fun _ _ hs _ hB hstep => hstep.affords hs hB)
    (fun _ _ _ _ _ hC hstep _ => hstep.affords hC)
    (fun _ _ _ _ _ hcopying hC hhalt => hhalt.affords hcopying.sound hC)
    (fun _ _ _ _ hsettling _ _ hstep => hstep.affords hsettling.2.2.2.1 hsettling.2.2.2.2.2)
    (fun _ _ hC hmeter => hmeter.affords hC) fun s f hC hshort => ⟨?_, hC⟩).conseq ?_ ?_ ?_)
    fun _ hs _ => ⟨hs, rfl⟩
  · refine Bool.eq_false_iff.2 fun hf => ?_
    obtain ⟨o, ho, hover⟩ := hshort hf
    obtain ⟨o₁, ho₁, hafford⟩ := hC
    obtain rfl : o = o₁ := Option.some_inj.1 (ho.symm.trans ho₁)
    exact absurd hafford.verified (Nat.not_le.2 hover)
  · rintro s ⟨h, hstage⟩
    have hafford := h.affords (by rw [hstage]; decide)
    rw [ahead_eq_nil (by rw [hstage]; decide)] at hafford
    exact ⟨h.sound, hstage, hafford⟩
  · rintro _ s ⟨s₁, -, hC, rfl, hs⟩
    exact .of_affords hs (show 2 ≤ 4 by decide) hC nofun
  · rintro f s ⟨hs, hstage, hf, hC⟩
    exact ⟨.of_affords hs (by rw [hstage]; decide) hC (by rw [hstage]; nofun), hf⟩

end SessionM

namespace Call

/-- But for its first gather, no call `c` changes a session until its buffer is reserved. -/
theorem triple_run_waiting {s : Session} (h : s.Sound) {c : Call}
    (hc : s.stage ≠ .new ∨ ∀ roots, c ≠ .gather roots) :
    Triple (· = s) c.run (fun _ s' => s' = s ∨ 2 ≤ s'.stage.rank)
      (fun _ s' => s' = s ∨ 2 ≤ s'.stage.rank) := by
  -- what only touches the output has an output to touch, so the buffer is reserved
  have htouching : ∀ {m : SessionM Unit}, Touching s m →
      Triple (· = s) m (fun _ s' => s' = s ∨ 2 ≤ s'.stage.rank) (fun _ s' => s' = s ∨ 2 ≤ s'.stage.rank) := by
    have hlate : ∀ s', Touches s s' → s' = s ∨ 2 ≤ s'.stage.rank := by
      rintro s' (rfl | ⟨o, o', ho, -, rfl⟩)
      · exact Or.inl rfl
      · exact Or.inr (h.filled o ho).stage
    intro m hm
    exact Triple.conseq hm (fun _ hs => hs) (fun _ => hlate) fun _ => hlate
  cases c with
  | gather roots =>
    have hgathered : s.stage ≠ .new := hc.resolve_right fun hne => hne roots rfl
    exact Triple.ofStage (fun r hr => absurd (hr.1 ▸ hr.2) hgathered) fun _ hs _ => Or.inl hs
  | reserveBuffer a =>
    refine (triple_reserveBuffer h.settings a).conseq (fun _ hs => hs) ?_ fun _ _ hs => Or.inl hs
    rintro _ s' ⟨-, o, -, rfl⟩
    exact Or.inr (Nat.le_refl 2)
  | allocateOther n =>
    have hrun : Triple (· = s) (SessionM.allocateOther n) (fun _ s' => s' = s ∨ 2 ≤ s'.stage.rank)
        (fun _ s' => s' = s ∨ 2 ≤ s'.stage.rank) := by
      refine (triple_allocateOther h.arenas n).conseq (fun _ hs => hs) ?_ fun _ _ hs => Or.inl hs.1
      rintro _ s' ⟨-, o, t, stats, ho, -, -, -, -, -, rfl⟩
      exact Or.inr (h.filled o ho).stage
    exact hrun.bind fun _ _ hs => hs
  | writeWord slot w => exact htouching (slotting_writeWord slot w).touching
  | verifyEstimate estimate label => exact htouching (touching_verifyEstimate estimate label)
  | copyMutable tables =>
    refine Triple.ofStage (triple_copyMutable_stage.conseq (fun _ hs => ⟨hs.1 ▸ h, hs.2⟩) ?_ ?_)
      fun _ hs _ => Or.inl hs
    · exact fun _ s' hs => Or.inr (by rw [hs.2]; decide)
    · exact fun _ s' hs => Or.inr (by rw [hs.2]; decide)
  | copyReadOnly tables =>
    refine Triple.ofStage (triple_copyReadOnly_stage.conseq (fun _ hs => ⟨hs.1 ▸ h, hs.2⟩) ?_ ?_)
      fun _ hs _ => Or.inl hs
    · exact fun _ s' hs => Or.inr (by rw [hs.2]; decide)
    · exact fun _ s' hs => Or.inr (by rw [hs.2]; decide)
  | recordReplaced former substitute =>
    refine (triple_recordReplaced s former substitute).conseq (fun _ hs => hs) ?_ fun _ _ hs => Or.inl hs
    rintro _ s' ⟨hrank, hstep⟩
    exact Or.inr (by rw [hstep.stage.1]; omega)
  | markPointer slot => exact htouching (slotting_markPointer slot).touching
  | setPointer slot value => exact htouching (slotting_setPointer slot value).touching
  | clearPointer slot => exact htouching (slotting_clearPointer slot).touching
  | writePointer slot source? => exact htouching (slotting_writePointer slot source?).touching
  | wire =>
    refine Triple.ofStage ((triple_wire_stage (C := fun _ => True) fun _ _ _ _ _ _ _ => trivial).conseq
      (fun _ hs => ⟨hs.1 ▸ h, hs.2, trivial⟩) ?_ ?_) fun _ hs _ => Or.inl hs
    · rintro _ s' ⟨_, -, rfl, -⟩
      exact Or.inr (show 2 ≤ 5 by decide)
    · exact fun _ s' hs => Or.inr (by rw [hs.2.1]; decide)
  | relocate =>
    refine Triple.ofStage (t := .wired) (fun r hr => ?_) fun _ hs _ => Or.inl hs
    obtain ⟨rfl, hstage⟩ := hr
    obtain ⟨o, ho⟩ := Sound.output_of_rank h (by rw [hstage]; decide)
    refine (triple_relocate_halted h ho hstage).use rfl ?_ ?_
    · rintro _ r' ⟨o', -, hr'⟩
      exact Or.inr (by rw [hr']; exact show 2 ≤ 6 by decide)
    · rintro _ r' ⟨i, o', -, -, hr'⟩
      exact Or.inr (by rw [hr']; exact (h.filled o ho).stage)

/-- The bytes that a call takes for what the host builds itself. -/
def otherBytes : Call → Nat
  | allocateOther bytes => allocatedBytes bytes
  | _ => 0

/-- The call takes bytes of the buffer. -/
def takesRoom : Call → Bool
  | allocateOther _ | copyMutable _ | copyReadOnly _ => true
  | _ => false

/-- The call copies the mutable objects. -/
def copiesMutable : Call → Bool
  | copyMutable _ => true
  | _ => false

/-- The call `c` on `s` fails for want of room. -/
def fallsShort (c : Call) (s : Session) : Bool :=
  match (c.run.perform s).1 with
  | .ok _ => false
  | .error f => f.isShortage

/-- The call `c` leaves the mutable objects of `s` to be copied, though it is the one that copies
    them. -/
def leavesMutable (c : Call) (s : Session) : Bool := c.copiesMutable && (c.after s).stage == .reserved

/-- How far the call `c` raised the top of the current region of `s`. -/
def raises (c : Call) (s : Session) : Nat := (c.after s).top - s.top

variable {s : Session} {again : Bool} {bytes : Nat}

/-- Every other call takes the `otherBytes` that were set aside for it, and may be followed by all
    that was afforded. -/
theorem triple_run_funded : ∀ c : Call, c.copiesMutable = false →
    Triple (Session.Funded again (c.otherBytes + bytes)) c.run (fun _ => Session.Funded again bytes)
      (fun f s => s.Funded again bytes ∧ (c.takesRoom = true → f.isShortage = false)) := by
  have hkept : ∀ {m : SessionM Unit}, Keeps (Session.Funded again bytes) m →
      Triple (Session.Funded again (0 + bytes)) m (fun _ => Session.Funded again bytes)
        (fun f s => s.Funded again bytes ∧ (false = true → f.isShortage = false)) := fun hm =>
    hm.conseq (fun s hs => by rw [Nat.zero_add] at hs; exact hs) (fun _ _ hs => hs)
      fun _ _ hs => ⟨hs, nofun⟩
  intro c hc
  cases c with
  | gather roots => exact hkept (keeps_funded_outOfOrder (by decide))
  | reserveBuffer advisories => exact hkept (keeps_funded_outOfOrder (by decide))
  | allocateOther n =>
    have hrun : Triple (Session.Funded again (allocatedBytes n + bytes)) (allocateOther n).run
        (fun _ => Session.Funded again bytes) (fun f s => s.Funded again bytes ∧ f.isShortage = false) :=
      (triple_allocateOther_funded n).bind fun _ _ hs => hs
    exact hrun.conseq (fun _ hs => hs) (fun _ _ hs => hs) fun _ _ hs => ⟨hs.1, fun _ => hs.2⟩
  | writeWord slot w => exact hkept (keeps_funded_slotting fun _ => slotting_writeWord slot w)
  | verifyEstimate estimate label => exact hkept (keeps_funded_verifyEstimate estimate label)
  | copyMutable tables => cases hc
  | copyReadOnly tables =>
    exact triple_copyReadOnly_funded.conseq (fun s hs => by rw [← Nat.zero_add bytes]; exact hs)
      (fun _ _ hs => hs) fun _ _ hs => ⟨hs.1, fun _ => hs.2⟩
  | recordReplaced former substitute => exact hkept (keeps_funded_recordReplaced former substitute)
  | markPointer slot => exact hkept (keeps_funded_slotting fun _ => slotting_markPointer slot)
  | setPointer slot value => exact hkept (keeps_funded_slotting fun _ => slotting_setPointer slot value)
  | clearPointer slot => exact hkept (keeps_funded_slotting fun _ => slotting_clearPointer slot)
  | writePointer slot source? =>
    exact hkept (keeps_funded_slotting fun _ => slotting_writePointer slot source?)
  | wire => exact hkept keeps_funded_wire
  | relocate => exact hkept keeps_funded_relocate

/-- What holds after the call `c`, and that it does not fall short. -/
theorem after_of_triple {P Q : Session → Prop} {c : Call}
    (h : Triple P c.run (fun _ => Q) fun f s => Q s ∧ (c.takesRoom = true → f.isShortage = false))
    (hs : P s) :
    (c.takesRoom = true → c.fallsShort s = false) ∧ Q (c.after s) := by
  unfold fallsShort after
  obtain ⟨_, hok, hQ⟩ | ⟨f, herror, hQ, hplain⟩ := h.perform hs
  · rw [hok]
    exact ⟨fun _ => rfl, hQ⟩
  · rw [herror]
    exact ⟨hplain, hQ⟩

/-- A call `c` that is funded does not fall short, and the `bytes` that are funded beside it are
    funded still. -/
theorem funded_after (c : Call) (h : s.Funded again (c.otherBytes + bytes))
    (hc : c.copiesMutable = true → again = true) :
    (c.takesRoom = true → c.fallsShort s = false) ∧
      (c.after s).Funded (again && !c.leavesMutable s) bytes := by
  unfold leavesMutable
  cases hcopies : c.copiesMutable with
  | false =>
    rw [Bool.false_and, Bool.not_false, Bool.and_true]
    exact after_of_triple (c.triple_run_funded hcopies) h
  | true =>
    obtain rfl := hc hcopies
    obtain ⟨tables, rfl⟩ : ∃ tables, c = .copyMutable tables := by
      cases c <;> cases hcopies
      exact ⟨_, rfl⟩
    obtain ⟨hroom, hafter⟩ := after_of_triple (c := .copyMutable tables)
      (triple_copyMutable_funded.conseq (fun _ hs => hs) (fun _ _ hs => hs)
        fun _ _ hs => ⟨hs.1, fun _ => hs.2⟩)
      (show s.Funded true bytes by rw [← Nat.zero_add bytes]; exact h)
    refine ⟨hroom, ?_⟩
    by_cases hstage : ((copyMutable tables).after s).stage = .reserved
    · rw [hstage]
      exact hafter
    · exact hafter.anew hstage _

/-- A call `c` that leaves the mutable objects to be copied has only taken room for some of them. -/
theorem spends_of_leavesMutable (hs : s.Sound) {c : Call} (hc : c.leavesMutable s = true) :
    s.stage = .reserved ∧ (c.after s).stage = .reserved ∧ ∃ o o', s.Spends (c.after s) o o' := by
  obtain ⟨hcopies, hleft⟩ := Bool.and_eq_true_iff.1 hc
  have hafter : (c.after s).stage = .reserved := eq_of_beq hleft
  obtain ⟨tables, rfl⟩ : ∃ tables, c = .copyMutable tables := by
    cases c <;> cases hcopies
    exact ⟨_, rfl⟩
  by_cases hstage : s.stage = .reserved
  · obtain ⟨_, -, hcopied⟩ | ⟨_, -, hspends⟩ :=
      (triple_copyMutable_spends tables hs hstage).perform rfl
    · exact nomatch hcopied.symm.trans hafter
    · exact ⟨hstage, hspends⟩
  · obtain ⟨_, -, hnever⟩ | ⟨_, -, hsame, -⟩ :=
      (triple_outOfOrder (Q := fun _ _ => False) hstage : Triple _ (SessionM.copyMutable tables) _ _).perform rfl
    · exact hnever.elim
    · have hstage' : (Call.after (.copyMutable tables) s).stage = s.stage := congrArg Session.stage hsame
      exact absurd (hstage'.symm.trans hafter) hstage

/-- Where the mutable objects are left to be copied, they may be copied again if the bytes that the call `c`
    took in vain were funded beside the `bytes` for what comes later. -/
theorem funded_again (c : Call) (h : s.Funded true (c.raises s + bytes)) (hc : c.leavesMutable s = true) :
    (c.after s).Funded true bytes := by
  obtain ⟨hstage, hafter, o, o', hspends⟩ := spends_of_leavesMutable h.sound hc
  have hahead : (c.after s).ahead true = s.ahead true := by
    unfold Session.ahead
    rw [hstage, hafter]
    obtain ⟨_, _, -, hsame⟩ := hspends.change
    rw [hsame]
    rfl
  have hraises : c.raises s = o'.arena.top - o.arena.top := by
    unfold raises Session.top
    rw [hspends.before, hspends.after]
    rfl
  refine ⟨c.sound_after h.sound, by rw [hafter]; decide, fun _ => ?_⟩
  rw [hahead]
  refine hspends.affords (h.affords (by rw [hstage]; decide)) ?_
  have hgrows := hspends.grows.top_le
  omega

end Call

namespace Session

/-- The bytes that some calls on `s` take in vain: those of a call that leaves the mutable objects
    to be copied, if one of the calls after it copies them again. -/
def wasted (s : Session) : List Call → Nat
  | [] => 0
  | c :: calls =>
    (if c.leavesMutable s && calls.any Call.copiesMutable then c.raises s else 0) + (c.after s).wasted calls

variable {s : Session}

/-- Where one of `calls` at most is to copy the mutable objects, whether it succeeds or fails,
    nothing is taken in vain. -/
theorem wasted_eq_zero {calls : List Call} (honce : calls.countP Call.copiesMutable ≤ 1) :
    s.wasted calls = 0 := by
  induction calls generalizing s with
  | nil => rfl
  | cons c rest ih =>
    rw [List.countP_cons] at honce
    rw [wasted, ih (by omega), Nat.add_zero, if_neg]
    rintro hwaste
    obtain ⟨hleaves, hany⟩ := Bool.and_eq_true_iff.1 hwaste
    have hcopies : c.copiesMutable = true := (Bool.and_eq_true_iff.1 hleaves).1
    have hrest : 0 < rest.countP Call.copiesMutable := List.countP_pos_iff.2 (List.any_eq_true.1 hany)
    rw [if_pos hcopies] at honce
    omega

/-- The call `c` does not fall short as long as what it takes, with what `calls` before it take and
    waste, is funded. -/
theorem Funded.not_short {again : Bool} {c : Call} (calls : List Call)
    (h : s.Funded again (((calls ++ [c]).map Call.otherBytes).sum + s.wasted (calls ++ [c])))
    (hagain : ∀ x ∈ calls ++ [c], x.copiesMutable = true → again = true) (hc : c.takesRoom = true) :
    c.fallsShort (s.afterCalls calls) = false := by
  -- on the calls before `c`: each takes its share, and wastes it where the mutable objects are
  -- copied again
  induction calls generalizing s again with
  | nil => exact (c.funded_after (h.mono (Nat.le_add_right ..)) (hagain c (List.mem_singleton_self c))).1 hc
  | cons x rest ih =>
    have hsum : (((x :: rest) ++ [c]).map Call.otherBytes).sum =
        x.otherBytes + ((rest ++ [c]).map Call.otherBytes).sum := List.sum_cons
    rw [List.cons_append, wasted, ← List.cons_append, hsum] at h
    have hx := hagain x (List.mem_cons_self ..)
    have hrest : ∀ y ∈ rest ++ [c], y.copiesMutable = true → again = true := fun y hy =>
      hagain y (List.mem_cons_of_mem _ hy)
    cases hwaste : x.leavesMutable s && (rest ++ [c]).any Call.copiesMutable with
    | true =>
      -- what `x` took is charged, and the mutable objects may be copied again
      obtain ⟨hleaves, -⟩ := Bool.and_eq_true_iff.1 hwaste
      obtain rfl := hx (Bool.and_eq_true_iff.1 hleaves).1
      rw [hwaste, if_pos rfl] at h
      refine ih (x.funded_again (h.mono ?_) hleaves) fun _ _ _ => rfl
      dsimp only
      omega
    | false =>
      rw [hwaste, if_neg Bool.false_ne_true, Nat.zero_add, Nat.add_assoc] at h
      refine ih (x.funded_after h hx).2 fun y hy hcopies => ?_
      have hany : (rest ++ [c]).any Call.copiesMutable = true := List.any_eq_true.2 ⟨y, hy, hcopies⟩
      rw [hany, Bool.and_true] at hwaste
      rw [hrest y hy hcopies, hwaste]
      rfl

/-- But for its first gather a session is as it was after `calls` until its buffer is reserved. -/
theorem afterCalls_waiting (hs : s.Sound) (calls : List Call)
    (hcalls : s.stage ≠ .new ∨ ∀ roots, .gather roots ∉ calls) :
    s.afterCalls calls = s ∨ 2 ≤ (s.afterCalls calls).stage.rank := by
  induction calls generalizing s with
  | nil => exact Or.inl rfl
  | cons c rest ih =>
    have hfirst : s.stage ≠ .new ∨ ∀ roots, c ≠ .gather roots :=
      hcalls.imp_right fun hnone roots hc => hnone roots (hc ▸ List.mem_cons_self ..)
    have hstep : c.after s = s ∨ 2 ≤ (c.after s).stage.rank := by
      obtain ⟨_, -, hstep⟩ | ⟨_, -, hstep⟩ := (Call.triple_run_waiting hs hfirst).perform rfl <;>
        exact hstep
    change (c.after s).afterCalls rest = s ∨ 2 ≤ ((c.after s).afterCalls rest).stage.rank
    rcases hstep with hsame | hrank
    · rw [hsame]
      exact ih hs (hcalls.imp_right fun hnone roots hmem => hnone roots (List.mem_cons_of_mem _ hmem))
    · have hnew : (c.after s).stage ≠ .new := fun heq => absurd hrank (by rw [heq]; decide)
      rcases ih (c.sound_after hs) (Or.inl hnew) with hsame | hlate
      · rw [hsame]
        exact Or.inr hrank
      · exact Or.inr hlate

/-- A session that comes to an early stage after `calls` is as it was. -/
theorem afterCalls_eq_of_early (hs : s.Sound) (calls : List Call)
    (hcalls : s.stage ≠ .new ∨ ∀ roots, .gather roots ∉ calls)
    (hearly : (s.afterCalls calls).stage.rank < 2) : s.afterCalls calls = s :=
  (afterCalls_waiting hs calls hcalls).resolve_right (Nat.not_le.2 hearly)

/-- After the first gather, of `roots`, the estimate covers all that is listed. -/
theorem covers_gathered {h : Heap} (made : h.Made) {reservations : Reservations} {settings : Settings}
    {mapped? : Option (AddrRange .mapped)} {alive : Bool}
    (hbegin : begin h.toHost reservations settings mapped? alive = .ok s) {roots : List Word}
    (hok : ((gather roots).perform s).1 = .ok ()) :
    let s' := (Call.gather roots).after s
    s'.stage = .gathered ∧
      s'.estimate.Covers (s'.need (s'.books.sources .mutable ++ s'.books.sources .readOnly)) := by
  obtain ⟨-, d?, -, rfl⟩ := begin_eq_ok hbegin
  exact (triple_gather_covered made.sound d? roots).on_eq_ok (r := ⟨_, #[]⟩) rfl hok

/-- What the estimate covers and what `a` advises is funded once the buffer is reserved. -/
theorem funded_reserved (hs : s.Sound) (hstage : s.stage = .gathered)
    (hcovers : s.estimate.Covers (s.need (s.books.sources .mutable ++ s.books.sources .readOnly)))
    (waiting : List Call) {a : Advisories}
    (hok : ((reserveBuffer a).perform (s.afterCalls waiting)).1 = .ok ()) :
    ((Call.reserveBuffer a).after (s.afterCalls waiting)).Funded true a.other := by
  have hwaiting : s.afterCalls waiting = s :=
    afterCalls_eq_of_early hs waiting (Or.inl (by rw [hstage]; nofun)) (by
      rw [stage_of_perform hok]
      decide)
  rw [hwaiting] at hok ⊢
  have hsound := (Call.reserveBuffer a).sound_after hs
  have hstep := (triple_reserveBuffer hs.settings a).on_eq_ok (r := ⟨s, #[]⟩) rfl hok
  change s.stage = .gathered ∧ ∃ o, Fresh s a o ∧ (Call.reserveBuffer a).after s = _ at hstep
  obtain ⟨-, o, hfresh, hafter⟩ := hstep
  rw [hafter] at hsound ⊢
  refine ⟨hsound, Nat.le_refl 2, fun _ => ⟨o, rfl, ?_⟩⟩
  rw [hfresh.current]
  exact hfresh.affords hcovers

/-- The estimate is an upper bound: after the first gather and the reservation, whatever is called, no call `c`
    that allocates or copies wants for room as long as the bytes that `calls` and `c` allocate by hand, and
    those that they waste, are no more than `a.other`. Nothing is wasted unless a copy of the mutable objects
    fails and they are copied again (`wasted_eq_zero`). -/
theorem estimate_suffices {h : Heap} (made : h.Made) {reservations : Reservations} {settings : Settings}
    {mapped? : Option (AddrRange .mapped)} {alive : Bool}
    (hbegin : begin h.toHost reservations settings mapped? alive = .ok s) {early : List Call}
    (hfirst : ∀ roots, .gather roots ∉ early) {roots : List Word}
    (hgather : ((gather roots).perform (s.afterCalls early)).1 = .ok ()) (waiting : List Call)
    {a : Advisories}
    (hreserve : ((reserveBuffer a).perform (s.afterCalls (early ++ .gather roots :: waiting))).1 = .ok ())
    (calls : List Call) {c : Call} (hc : c.takesRoom = true)
    (hother : ((calls ++ [c]).map Call.otherBytes).sum +
      (s.afterCalls (early ++ .gather roots :: waiting ++ [.reserveBuffer a])).wasted (calls ++ [c]) ≤
        a.other) :
    c.fallsShort (s.afterCalls (early ++ .gather roots :: waiting ++ [.reserveBuffer a] ++ calls)) =
      false := by
  have hs := sound_begin hbegin
  have hearly : s.afterCalls early = s :=
    afterCalls_eq_of_early hs early (Or.inr hfirst) (by
      rw [stage_of_perform hgather]
      decide)
  rw [hearly] at hgather
  rw [afterCalls_append, hearly] at hreserve
  have hgathered := (Call.gather roots).sound_after hs
  obtain ⟨hstage, hcovers⟩ := covers_gathered made hbegin hgather
  have hfunded : (s.afterCalls (early ++ .gather roots :: waiting ++ [.reserveBuffer a])).Funded true
      a.other := by
    rw [afterCalls_append, afterCalls_append, hearly]
    exact funded_reserved hgathered hstage hcovers waiting hreserve
  rw [afterCalls_append]
  exact (hfunded.mono hother).not_short calls (fun _ _ _ => rfl) hc

/-- The buffer of the session over the mixed heap is reserved, with 56 bytes for the host, after it was
    refused before anything was gathered, and for advisories that are too large. -/
def mixedReserving : List Call :=
  [.reserveBuffer ⟨0, 0, 0⟩] ++ .gather [0x100000000010] :: [.reserveBuffer ⟨0, 0, 0x10000⟩] ++
    [.reserveBuffer ⟨0, 0, 56⟩]

/-- A table provider that answers with an address inside of the buffer that is not aligned. -/
def crookedTables : TableProvider := fun _ _ => some ⟨0x20011⟩

/-- The host allocates before the mutable objects are copied and after that, and checks in between. The first
    copy fails, after its 40 bytes were taken. -/
def mixedFilling : List Call :=
  [.allocateOther 5, .verifyEstimate 8 "host", .copyMutable crookedTables, .copyMutable noTables,
    .allocateOther 8]

/-- Of the 128 bytes of the buffer all but eight are taken in the end: those of the replaced object, which
    was counted and is not copied. -/
theorem estimate_suffices_mixed :
    (Call.copyReadOnly noTables).fallsShort
      (mixedSession.afterCalls (mixedReserving ++ mixedFilling)) = false ∧
    (mixedSession.afterCalls mixedReserving).wasted (mixedFilling ++ [.copyReadOnly noTables]) = 40 ∧
    (mixedSession.afterCalls (mixedReserving ++ mixedFilling ++ [.copyReadOnly noTables])).output?.map
      (fun o => (o.arena.top, o.buffer.length)) = some (120, 128) := by
  have hbegin : mixedBegun = .ok mixedSession := eq_ok_of_toOption (Option.some_get _).symm
  have hgather : ((gather [0x100000000010]).perform
      (mixedSession.afterCalls [.reserveBuffer ⟨0, 0, 0⟩])).1.toOption = some () := by decide +kernel
  have hreserve : ((reserveBuffer ⟨0, 0, 56⟩).perform (mixedSession.afterCalls
      [.reserveBuffer ⟨0, 0, 0⟩, .gather [0x100000000010], .reserveBuffer ⟨0, 0, 0x10000⟩])).1.toOption =
      some () := by decide +kernel
  have hwasted : (mixedSession.afterCalls mixedReserving).wasted
      (mixedFilling ++ [.copyReadOnly noTables]) = 40 := by decide +kernel
  have hother : ((mixedFilling ++ [Call.copyReadOnly noTables]).map Call.otherBytes).sum = 16 := by decide
  have hfirst : ∀ roots, Call.gather roots ∉ [Call.reserveBuffer ⟨0, 0, 0⟩] := by simp
  have hplenty := estimate_suffices mixedHeap_made hbegin hfirst (eq_ok_of_toOption hgather)
    [.reserveBuffer ⟨0, 0, 0x10000⟩] (eq_ok_of_toOption hreserve) mixedFilling
    (show (Call.copyReadOnly noTables).takesRoom = true from rfl)
  unfold mixedReserving at hwasted ⊢
  rw [hother, hwasted] at hplenty
  exact ⟨hplenty (Nat.le_refl 56), hwasted, by decide +kernel⟩

/-- A heap of one object of four words. -/
def rowHeap : Heap := (Heap.create 0x100000000000 0).afterCalls [.alloc .other 4 none]

/-- A session over that heap, with regions that are aligned to a word. -/
def rowFresh : Session := fresh rowHeap.toHost ⟨⟨0x20000⟩, 0x1000, room_fits⟩ ⟨0x8000, 8, 0, false⟩ none

/-- Without counting what is wasted the estimate is no upper bound: nothing is allocated by hand, the first
    copy of the mutable objects fails over its table, and the second one wants for the 32 bytes that the first
    one took. -/
theorem retried_copies_short :
    rowHeap.Made ∧
    begin rowHeap.toHost ⟨⟨0x20000⟩, 0x1000, room_fits⟩ ⟨0x8000, 8, 0, false⟩ none false = .ok rowFresh ∧
    ((gather [0x100000000000]).perform rowFresh).1 = .ok () ∧
    ((reserveBuffer ⟨0, 0, 0⟩).perform (rowFresh.afterCalls [.gather [0x100000000000]])).1 = .ok () ∧
    (([.copyMutable crookedTables] ++ [.copyMutable noTables] : List Call).map Call.otherBytes).sum = 0 ∧
    (Call.copyMutable noTables).takesRoom = true ∧
    (Call.copyMutable noTables).fallsShort (rowFresh.afterCalls
      [.gather [0x100000000000], .reserveBuffer ⟨0, 0, 0⟩, .copyMutable crookedTables]) = true :=
  ⟨(Heap.Made.create (by decide) (by decide)).afterCalls _, begin_fresh (by decide +kernel),
    eq_ok_of_toOption (by decide +kernel), eq_ok_of_toOption (by decide +kernel), by decide, rfl,
    by decide +kernel⟩

end Session

end SnapshotArchive
