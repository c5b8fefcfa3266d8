import Mathlib.Tactic.Common
import SnapshotArchive.Proofs.LastWrites

/-!
Words of the buffer that no copy has: those of the blocks that were allocated by hand, and those past all
that is allocated. Copying, switching to the other region and wiring leave them as they are, also where they
fail half-way. So up to the final pass only calls that are about a slot change such a word, and each changes
the word of its own slot alone.
-/

namespace SnapshotArchive

open SessionM Session

namespace Output

variable {blocks : List Span} {o o' o'' : Output} {i : Nat}

/-- No copy has word `i`: it lies in one of `blocks`, or past all that is allocated. -/
def Loose (blocks : List Span) (o : Output) (i : Nat) : Prop :=
  o.arena.top ≤ wordBytes * i ∨ ∃ b ∈ blocks, b.Has (o.buffer.bottom.toNat + wordBytes * i)

/-- All `blocks` end below the top of `o`. -/
def Bounds (blocks : List Span) (o : Output) : Prop :=
  ∀ b ∈ blocks, b.stop ≤ o.buffer.bottom.toNat + o.arena.top

/-- More may be allocated in `o'`, and the words that are loose after that are as they were in
    `o`. -/
structure KeepsLoose (blocks : List Span) (o o' : Output) : Prop where
  bottom : o'.buffer.bottom = o.buffer.bottom
  length : o'.buffer.length = o.buffer.length
  top : o.arena.top ≤ o'.arena.top
  cells : ∀ i, o'.Loose blocks i → o'.cell i = o.cell i

namespace KeepsLoose

/-- What is loose in `o'` was loose in `o`. -/
theorem loose (h : o.KeepsLoose blocks o') (hi : o'.Loose blocks i) : o.Loose blocks i := by
  rcases hi with hpast | hblock
  · exact .inl (h.top.trans hpast)
  · rw [h.bottom] at hblock
    exact .inr hblock

theorem bounds (h : o.KeepsLoose blocks o') (hbounds : o.Bounds blocks) : o'.Bounds blocks := by
  intro b hb
  have hstop := hbounds b hb
  have htop := h.top
  rw [h.bottom]
  omega

theorem refl (blocks : List Span) (o : Output) : o.KeepsLoose blocks o :=
  ⟨rfl, rfl, Nat.le_refl _, fun _ _ => rfl⟩

theorem trans (h : o.KeepsLoose blocks o') (h' : o'.KeepsLoose blocks o'') : o.KeepsLoose blocks o'' where
  bottom := h'.bottom.trans h.bottom
  length := h'.length.trans h.length
  top := h.top.trans h'.top
  cells i hi := (h'.cells i hi).trans (h.cells i (h'.loose hi))

/-- Allocation alone changes no word. -/
theorem ofContents (hbuffer : o'.buffer = o.buffer) (hpointers : o'.pointers = o.pointers)
    (htop : o.arena.top ≤ o'.arena.top) : o.KeepsLoose blocks o' where
  bottom := by rw [hbuffer]
  length := by rw [hbuffer]
  top := htop
  cells i _ := by simp [cell, hbuffer, hpointers]

/-- Words are put between the old top of `o` and the new one of `o'`. -/
theorem ofGrows (hbounds : o.Bounds blocks) (hgrows : o.Grows o') (habove : ∀ j, o'.arena.top ≤ wordBytes * j →
    o'.buffer.words.read j = o.buffer.words.read j ∧ o'.pointers.has j = o.pointers.has j) :
    o.KeepsLoose blocks o' where
  bottom := hgrows.bottom
  length := hgrows.length
  top := hgrows.top_le
  cells i hi := by
    rcases hi with hpast | ⟨b, hb, -, hstop⟩
    · exact Prod.ext (habove i hpast).1 (habove i hpast).2
    · have hbelow : 8 * i < o.arena.top := by
        have := hbounds b hb
        rw [hgrows.bottom] at hstop
        unfold wordBytes at hstop
        omega
      exact Prod.ext (hgrows.words i hbelow) (hgrows.marks i hbelow)

/-- A pointer `w` is stored in a word that is not loose. -/
theorem setPointer {n : Nat} (w : Word) (hn : ¬o.Loose blocks (n / wordBytes)) :
    o.KeepsLoose blocks (o.setPointer n w) := by
  have hroom := (SameRoom.refl o).setPointer n w
  refine ⟨hroom.bottom, hroom.length, by rw [hroom.arena], fun i hi => ?_⟩
  rw [cell_setPointer, if_neg]
  rintro rfl
  unfold Loose at hi
  rw [hroom.arena, hroom.bottom] at hi
  exact hn hi

end KeepsLoose

end Output

namespace Session

variable {blocks : List Span} {s s' : Session} {o o' : Output}

/-- Entries of objects that were replaced have no bits of their own. -/
def StandInsBare (s : Session) : Prop :=
  ∀ w e, s.catalog.get? w = some e → e.isAlias = true → e.bits? = none

/-- What holds of `s` at all times of the copies and of the `blocks` that were allocated by hand. -/
structure Tended (blocks : List Span) (s : Session) : Prop where
  inside : s.Inside fun _ => True
  spread : Spread blocks s
  standIns : s.StandInsBare

theorem Tended.sound (h : Tended blocks s) : s.Sound := h.inside.sound

theorem Tended.bounds (h : Tended blocks s) (ho : s.output? = some o) : o.Bounds blocks := by
  intro b hb
  obtain ⟨o₁, ho₁, hle⟩ := h.spread.below b hb
  obtain rfl := Option.some_inj.1 (ho.symm.trans ho₁)
  exact hle

/-- The session `s` has come from one with output `o`, and its loose words are as they were. -/
structure Spared (blocks : List Span) (o : Output) (s : Session) : Prop where
  inside : s.Inside fun _ => True
  output : ∃ o', s.output? = some o' ∧ o.KeepsLoose blocks o'

theorem Tended.spared (h : Tended blocks s) (ho : s.output? = some o) : Spared blocks o s :=
  ⟨h.inside, o, ho, .refl blocks o⟩

/-- A change of the output from `o₁` to `o₂` that keeps loose words. -/
theorem Spared.step {o₁ o₂ : Output} (h : Spared blocks o s) (hs' : s'.Inside fun _ => True)
    (ho₁ : s.output? = some o₁) (ho₂ : s'.output? = some o₂) (hkeeps : o₁.KeepsLoose blocks o₂) :
    Spared blocks o s' := by
  obtain ⟨x, hx, hleft⟩ := h.output
  obtain rfl := Option.some_inj.1 (ho₁.symm.trans hx)
  exact ⟨hs', o₂, ho₂, hleft.trans hkeeps⟩

theorem Spared.bounds {o₁ : Output} (h : Spared blocks o s) (hbounds : o.Bounds blocks)
    (ho₁ : s.output? = some o₁) : o₁.Bounds blocks := by
  obtain ⟨x, hx, hleft⟩ := h.output
  obtain rfl := Option.some_inj.1 (ho₁.symm.trans hx)
  exact hleft.bounds hbounds

theorem Spared.enter {t : Stage} (h : Spared blocks o s) (hs : Session.Sound { s with stage := t }) :
    Spared blocks o { s with stage := t } := ⟨h.inside.enter hs, h.output⟩

end Session

namespace SessionM

variable {blocks : List Span} {s s' : Session} {o : Output} {tables : TableProvider}

theorem CopyStep.spared {w : Word} (hstep : CopyStep tables w s s') (hbounds : o.Bounds blocks)
    (h : Spared blocks o s) (hs' : s'.Sound) : Spared blocks o s' := by
  have hinside := hstep.inside h.inside hs'
  obtain ⟨e, o₁, o₂, _, _, _, _, ho₁, he, -, -, hdone, -, rfl⟩ := hstep
  exact Spared.step h hinside ho₁ rfl
    (.ofGrows (Spared.bounds h hbounds ho₁) hdone.grows (hdone.above (h.inside.sized.positive w e he)))

theorem CopyHalt.spared {w : Word} {f : Failure} (hhalt : CopyHalt tables w s f s') (hbounds : o.Bounds blocks)
    (h : Spared blocks o s) : Spared blocks o s' := by
  have hinside := hhalt.inside h.inside
  rcases hhalt with ⟨rfl, -⟩ | ⟨e, o₁, he, ho₁, o₂, _, hstop, -, rfl⟩
  · exact h
  · exact Spared.step h hinside ho₁ rfl
      (.ofGrows (Spared.bounds h hbounds ho₁) hstop.grows (hstop.above (h.inside.sized.positive w e he)))

theorem SwitchStep.spared (hstep : SwitchStep s s') (h : Spared blocks o s) (hs' : s'.Sound) :
    Spared blocks o s' := by
  have hinside := hstep.inside h.inside hs'
  obtain ⟨o₁, arena, ho₁, harena, rfl⟩ := hstep
  obtain ⟨hc, hc', ha', -, -, htop, -⟩ :=
    Arena.startReadOnly_eq_ok (h.inside.sound.filled o₁ ho₁).arena harena
  refine Spared.step h hinside ho₁ rfl (.ofContents rfl rfl ?_)
  refine Nat.le_trans ?_ (ha'.region_top_le hc' .mutable)
  unfold Arena.top Arena.currentRegion Arena.region
  rw [hc]
  exact htop

theorem AliasStep.spared {former substitute : Word} (hstep : AliasStep former substitute s s')
    (h : Spared blocks o s) (hs' : s'.Sound) : Spared blocks o s' := by
  obtain ⟨o₁, ho₁, hkeeps⟩ := h.output
  exact ⟨hstep.inside h.inside hs', o₁, hstep.stage.2.trans ho₁, hkeeps⟩

theorem Metered.spared (hmeter : Metered s s') (h : Spared blocks o s) : Spared blocks o s' := by
  have hinside := hmeter.inside h.inside
  obtain ⟨o₁, ho₁, rfl⟩ := hmeter
  exact Spared.step h hinside ho₁ rfl (.ofContents rfl rfl (Nat.le_refl _))

/-- A field of the copy of `w` is no loose word. -/
theorem WireStep.keepsLoose {l : CopyList} {w : Word} (hstep : WireStep l w s s') (h : Tended blocks s) :
    ∃ o₁ o₂, s.output? = some o₁ ∧ s' = { s with output? := some o₂ } ∧ o₁.KeepsLoose blocks o₂ := by
  obtain ⟨o, e, target, base, n, word, ho, he, htarget, hbase, hn, rfl⟩ := hstep
  refine ⟨o, _, ho, rfl, .setPointer word ?_⟩
  have hplain : e.isAlias = false := by
    by_contra halias
    rw [Bool.not_eq_false] at halias
    unfold CopyList.pointerOffsets at hn
    rw [h.standIns w e he halias] at hn
    cases hn
  have hcopy : s.HasCopy w e target := ⟨he, hplain, htarget⟩
  obtain ⟨hblocks, hbelow⟩ := hcopy.field_off h.sound h.inside.sized h.spread ho hbase hn
  rintro (hpast | hblock)
  · exact absurd hbelow (Nat.not_lt.2 hpast)
  · exact hblocks hblock

theorem WireStep.tended {l : CopyList} {w : Word} (hstep : WireStep l w s s') (h : Tended blocks s) :
    Tended blocks s' := by
  refine ⟨hstep.inside h.inside, h.spread.touches h.sound hstep.touches, ?_⟩
  obtain ⟨_, _, _, _, _, _, -, -, -, -, -, rfl⟩ := hstep
  exact h.standIns

theorem keeps_spared_copyMutable (hbounds : o.Bounds blocks) :
    Keeps (Spared blocks o) (copyMutable tables) := by
  refine Keeps.ofStage ((triple_copyMutable (C := fun _ => Spared blocks o) (F := fun _ => Spared blocks o)
    (fun _ _ _ _ _ hC hstep hnext => hstep.spared hbounds hC hnext.sound)
    fun _ _ _ _ _ _ hC hhalt => hhalt.spared hbounds hC).conseq
    (fun _ hs => ⟨hs.1.inside.sound, hs.2, hs.1⟩) ?_ fun _ _ hs => hs.2.2)
  rintro _ s ⟨s₁, -, hC, rfl, hs⟩
  exact hC.enter hs

theorem keeps_spared_copyReadOnly (hbounds : o.Bounds blocks) :
    Keeps (Spared blocks o) (copyReadOnly tables) := by
  refine Keeps.ofStage ((triple_copyReadOnly (B := Spared blocks o) (C := fun _ => Spared blocks o)
    (F := fun _ => Spared blocks o) (fun _ _ hB _ => hB)
    (fun _ _ hs hstage hC hstep => hstep.spared hC (hstep.copying hs hstage).sound)
    (fun _ _ _ _ _ hC hstep hnext => hstep.spared hbounds hC hnext.sound)
    (fun _ _ _ _ _ _ hC hhalt => hhalt.spared hbounds hC)
    (fun _ _ _ _ hsettling _ _ hstep =>
      hstep.spared hsettling.2.2.2.2.2 (hstep.sound hsettling.1 hsettling.2.2.1))
    (fun _ _ hC hmeter => hmeter.spared hC) fun _ _ hC _ => hC).conseq
    (fun _ hs => ⟨hs.1.inside.sound, hs.2, hs.1⟩) ?_ fun _ _ hs => hs.2.2)
  rintro _ s ⟨s₁, -, hC, rfl, hs⟩
  exact hC.enter hs

theorem keeps_spared_recordReplaced (former substitute : Word) :
    Keeps (Spared blocks o) (recordReplaced former substitute) := by
  intro r h
  refine ((keeps_recordReplaced former substitute).and
    (triple_recordReplaced r.session former substitute)).use ⟨h.inside.sound, rfl⟩
    (fun _ _ h' => h'.2.2.spared h h'.1) fun _ r' h' => by rw [h'.2]; exact h

theorem keeps_spared_verifyEstimate (estimate : Nat) (label : String) :
    Keeps (Spared blocks o) (verifyEstimate estimate label) :=
  fun r h => (triple_verifyEstimate estimate label).use rfl (fun _ _ h' => h'.spared h) fun _ _ h' => by
    rw [h'.1]
    exact h

/-- Fields of copies are wired, and no loose words. -/
theorem keeps_spared_wire : Keeps (fun s => Tended blocks s ∧ Spared blocks o s) wire := by
  refine Keeps.ofStage ((triple_wire_stage (C := fun s => Tended blocks s ∧ Spared blocks o s)
    fun s s' l w _ hC hstep => ?_).conseq (fun _ hs => ⟨hs.1.1.sound, hs.2, hs.1⟩) ?_ fun _ _ hs => hs.2.2)
  · obtain ⟨o₁, o₂, ho₁, hs', hkeeps⟩ := hstep.keepsLoose hC.1
    have htended := hstep.tended hC.1
    exact ⟨htended, hC.2.step htended.inside ho₁ (by rw [hs']) hkeeps⟩
  · rintro _ s ⟨s₁, ⟨htended, hspared⟩, rfl, hs⟩
    exact ⟨⟨htended.inside.enter hs, htended.spread.withOutput htended.sound rfl rfl fun o ho =>
      ⟨o, ho, rfl, Nat.le_refl _, fun _ _ _ _ => id⟩, htended.standIns⟩, hspared.enter hs⟩

/-- Entries of replaced objects are made without bits, and they stay as they are. -/
theorem Change.standInsBare (hc : Change s s') (hs : s.Sound) (h : s.StandInsBare) : s'.StandInsBare := by
  intro w e' he' halias
  rcases hc.entry_cases hs he' with ⟨e, _, _, he, rfl⟩ | ⟨_, _, -, -, rfl⟩ | ⟨_, _, -, rfl⟩
  · exact h w e he halias
  · cases halias
  · rfl

end SessionM

namespace Call

variable {c : Call} {s : Session} {o : Output} {blocks : List Span}

theorem tended_after (c : Call) (h : Tended blocks s) : Tended (blocks ++ (c.block? s).toList) (c.after s) where
  inside := (c.inside_after h.inside).mono fun _ _ _ => trivial
  spread := c.spread_after h.sound h.inside.host h.spread
  standIns := (c.develops_after h.sound).keeps (fun _ _ hs _ hc => hc.standInsBare hs) h.standIns

/-- A step `c` that is not made at its stage `t` changes nothing. -/
theorem after_outOfOrder {t : Stage} {step : String} {m : Unit → SessionM Unit}
    (hrun : c.run = (requireStage t step >>= m)) (ht : s.stage ≠ t) : c.after s = s := by
  unfold after
  rw [hrun]
  obtain ⟨_, -, hfalse⟩ | ⟨_, -, hs, -⟩ := (triple_outOfOrder (Q := fun _ _ => False) ht).perform rfl
  · exact hfalse.elim
  · exact hs

/-- Only calls `c` that are about a slot change words that no copy has. -/
theorem keepsLoose_after (h : Tended blocks s) (ho : s.output? = some o) (hslot : c.slot? = none)
    (hc : c = relocate → s.stage ≠ .wired) :
    ∃ o', (c.after s).output? = some o' ∧ o.KeepsLoose (blocks ++ (c.block? s).toList) o' := by
  have hbounds := h.bounds ho
  have hrank := (h.sound.filled o ho).stage
  have hlate {t : Stage} (ht : t.rank < 2) : s.stage ≠ t := by
    rintro rfl
    exact absurd hrank (Nat.not_le.2 ht)
  have hrests (hsame : c.after s = s) : ∃ o', (c.after s).output? = some o' ∧ o.KeepsLoose blocks o' := by
    rw [hsame]
    exact ⟨o, ho, .refl blocks o⟩
  by_cases hallocate : ∃ n, c = allocateOther n
  · obtain ⟨n, rfl⟩ := hallocate
    rw [after_allocateOther]
    obtain ⟨_, -, -, x, t, stats, hx, -, -, hlow, -, -, hs'⟩ | ⟨_, -, hs', -⟩ :=
      (triple_allocateOther h.sound.arenas n).perform rfl
    · obtain rfl : o = x := Option.some_inj.1 (ho.symm.trans hx)
      rw [hs']
      exact ⟨_, rfl, .ofContents rfl rfl (by rw [Arena.top_advance]; omega)⟩
    · rw [hs']
      exact ⟨o, ho, .refl _ o⟩
  rw [block?_other fun n hn => hallocate ⟨n, hn⟩, Option.toList_none, List.append_nil]
  cases c with
  | gather roots => exact hrests (after_outOfOrder rfl (hlate (by decide)))
  | reserveBuffer a => exact hrests (after_outOfOrder rfl (hlate (by decide)))
  | allocateOther n => exact absurd ⟨n, rfl⟩ hallocate
  | verifyEstimate n label => exact (after_of_keeps (keeps_spared_verifyEstimate n label) (h.spared ho)).output
  | copyMutable tables => exact (after_of_keeps (keeps_spared_copyMutable hbounds) (h.spared ho)).output
  | copyReadOnly tables => exact (after_of_keeps (keeps_spared_copyReadOnly hbounds) (h.spared ho)).output
  | recordReplaced former substitute =>
    exact (after_of_keeps (keeps_spared_recordReplaced former substitute) (h.spared ho)).output
  | wire =>
    exact (after_of_keeps (c := wire) (P := fun s => Tended blocks s ∧ Spared blocks o s) keeps_spared_wire
      ⟨h, h.spared ho⟩).2.output
  | relocate => exact hrests (after_outOfOrder rfl (hc rfl))
  | _ => cases hslot

/-- A new block lies past all that was allocated before, so word `i` was loose. -/
theorem loose_of_block (hs : s.Sound) (ho : s.output? = some o) {i : Nat}
    (hi : o.Loose (blocks ++ (c.block? s).toList) i) : o.Loose blocks i := by
  rcases hi with hpast | ⟨b, hb, hhas⟩
  · exact .inl hpast
  · rcases List.mem_append.1 hb with hb | hb
    · exact .inr ⟨b, hb, hhas⟩
    · obtain ⟨-, x, -, hx, -, hstart, -⟩ := c.block?_bounds hs (Option.mem_toList.1 hb)
      obtain rfl : o = x := Option.some_inj.1 (ho.symm.trans hx)
      exact .inl (by have := hhas.1; omega)

/-- What a call `c` makes of the word at the address `n`, and of its mark. -/
def remadeAt (c : Call) (s : Session) (n : Nat) (cell : Word × Bool) : Word × Bool :=
  if c.isAbout s n then c.remake s cell else cell

/-- Each word `i` that no copy has is what the call `c` makes of it by hand. -/
theorem cells_after (h : Tended blocks s) (ho : s.output? = some o) (hc : c = relocate → s.stage ≠ .wired) :
    ∃ o', (c.after s).output? = some o' ∧ o'.buffer.bottom = o.buffer.bottom ∧
      o'.buffer.length = o.buffer.length ∧
      ∀ i, o'.Loose (blocks ++ (c.block? s).toList) i → o.Loose blocks i ∧
        o'.cell i = c.remadeAt s (o.buffer.bottom.toNat + wordBytes * i) (o.cell i) := by
  unfold remadeAt
  cases hslot : c.slot? with
  | none =>
    obtain ⟨o', ho', hkeeps⟩ := keepsLoose_after h ho hslot hc
    refine ⟨o', ho', hkeeps.bottom, hkeeps.length, fun i hi => ⟨loose_of_block h.sound ho (hkeeps.loose hi), ?_⟩⟩
    rw [isAbout_eq_false hslot]
    exact hkeeps.cells i hi
  | some slot =>
    rw [block?_of_slot? hslot, Option.toList_none, List.append_nil]
    obtain ⟨hsame, hnone⟩ | ⟨⟨x, n, words, pointers, hx, hn, hcells, hs'⟩, habout⟩ :=
      remake_after (s := s) hslot
    · rw [hsame]
      exact ⟨o, ho, rfl, rfl, fun i hi => ⟨hi, by rw [hnone]; rfl⟩⟩
    · obtain rfl : o = x := Option.some_inj.1 (ho.symm.trans hx)
      rw [hs']
      refine ⟨_, rfl, rfl, rfl, fun i hi => ⟨hi, ?_⟩⟩
      simp only [hcells, habout, beq_iff_eq, Buffer.slotOffset_index hn]

/-- Without a buffer no call `c` is answered that is about a slot. -/
theorem isAbout_bare (hnone : s.output? = none) (n : Nat) : c.isAbout s n = false := by
  cases hslot : c.slot? with
  | none => exact isAbout_eq_false hslot n
  | some slot =>
    obtain ⟨-, hfalse⟩ | ⟨⟨x, _, _, _, hx, -⟩, -⟩ := remake_after (s := s) hslot
    · exact hfalse n
    · exact nomatch hnone.symm.trans hx

end Call

namespace Session

variable {s : Session} {blocks : List Span} {hand : Nat → Word × Bool}

/-- What calls on `s` make by hand of the word at the address `n`, and of its mark. -/
def handmade (s : Session) (n : Nat) (cell : Word × Bool) : List Call → Word × Bool
  | [] => cell
  | c :: calls => (c.after s).handmade n (c.remadeAt s n cell) calls

/-- One of the calls that are answered is about the slot at the address `n`. -/
def handles (s : Session) (n : Nat) : List Call → Bool
  | [] => false
  | c :: calls => c.isAbout s n || (c.after s).handles n calls

/-- The word at `n` stays as it is if no call handles it. -/
theorem handmade_of_not_handles {n : Nat} {calls : List Call} (h : s.handles n calls = false)
    (cell : Word × Bool) : s.handmade n cell calls = cell := by
  induction calls generalizing s with
  | nil => rfl
  | cons c rest ih =>
    obtain ⟨hc, hrest⟩ := Bool.or_eq_false_iff.1 h
    unfold handmade Call.remadeAt
    rw [hc]
    exact ih hrest

theorem Tended.afterCalls (h : Tended blocks s) (calls : List Call) :
    Tended (blocks ++ s.blocks calls) (s.afterCalls calls) := by
  induction calls generalizing s blocks with
  | nil =>
    rw [Session.blocks, List.append_nil]
    exact h
  | cons c rest ih =>
    have hlast := ih (c.tended_after h)
    rw [List.append_assoc] at hlast
    exact hlast

/-- No call in turn makes the final pass. -/
def Unpassed (s : Session) : List Call → Prop
  | [] => True
  | c :: calls => (c = .relocate → s.stage ≠ .wired) ∧ (c.after s).Unpassed calls

theorem unpassed_of_ne {calls : List Call} (h : ∀ c ∈ calls, c ≠ .relocate) : s.Unpassed calls := by
  induction calls generalizing s with
  | nil => trivial
  | cons c rest ih =>
    obtain ⟨hc, hrest⟩ := List.forall_mem_cons.1 h
    exact ⟨fun heq => absurd heq hc, ih hrest⟩

/-- As long as `calls` do not make the final pass, words that no copy has are what they make of them
    by hand. -/
theorem Tended.cells_afterCalls {o : Output} (h : Tended blocks s) (ho : s.output? = some o)
    {calls : List Call} (hcalls : s.Unpassed calls) :
    ∃ o', (s.afterCalls calls).output? = some o' ∧ o'.buffer.bottom = o.buffer.bottom ∧
      ∀ i, o'.Loose (blocks ++ s.blocks calls) i → o.Loose blocks i ∧
        o'.cell i = s.handmade (o.buffer.bottom.toNat + wordBytes * i) (o.cell i) calls := by
  induction calls generalizing s blocks o with
  | nil =>
    rw [Session.blocks, List.append_nil]
    exact ⟨o, ho, rfl, fun i hi => ⟨hi, rfl⟩⟩
  | cons c rest ih =>
    obtain ⟨o₁, ho₁, hbottom, -, hcells⟩ := Call.cells_after h ho hcalls.1
    obtain ⟨o', ho', hbottom', hcells'⟩ := ih (c.tended_after h) ho₁ hcalls.2
    rw [List.append_assoc] at hcells'
    refine ⟨o', ho', hbottom'.trans hbottom, fun i hi => ?_⟩
    obtain ⟨hloose₁, hlast⟩ := hcells' i hi
    obtain ⟨hloose, hcell⟩ := hcells i hloose₁
    refine ⟨hloose, ?_⟩
    rw [hlast, hcell, hbottom]
    rfl

/-- Each word of `s` that no copy has is `hand` of its address. -/
structure LooseByHand (blocks : List Span) (hand : Nat → Word × Bool) (s : Session) : Prop where
  tended : Tended blocks s
  bare : s.output? = none → ∀ n, hand n = (0, false)
  cells : ∀ o, s.output? = some o → ∀ i, o.Loose blocks i →
    o.cell i = hand (o.buffer.bottom.toNat + wordBytes * i)

namespace LooseByHand

/-- What one call `c` does to the words that no copy has. -/
theorem after (h : LooseByHand blocks hand s) (c : Call) (hc : c = .relocate → s.stage ≠ .wired) :
    LooseByHand (blocks ++ (c.block? s).toList) (fun n => c.remadeAt s n (hand n)) (c.after s) := by
  have htended := c.tended_after h.tended
  cases ho : s.output? with
  | none =>
    have hhand (n : Nat) : c.remadeAt s n (hand n) = (0, false) := by
      unfold Call.remadeAt
      rw [Call.isAbout_bare ho, h.bare ho]
      rfl
    refine ⟨htended, fun _ => hhand, fun o' ho' i _ => ?_⟩
    rw [hhand]
    -- there is a buffer now, so it has just been reserved
    by_cases hreserve : ∃ a, c = .reserveBuffer a
    · obtain ⟨a, rfl⟩ := hreserve
      obtain ⟨_, -, -, x, hfresh, hs'⟩ | ⟨_, -, hs'⟩ :=
        (triple_reserveBuffer h.tended.sound.settings a).perform rfl
      · have hafter : (Call.reserveBuffer a).after s = { s with output? := some x, stage := .reserved } := hs'
        rw [hafter] at ho'
        cases ho'
        exact Prod.ext (hfresh.words i) (hfresh.marks i)
      · have hafter : (Call.reserveBuffer a).after s = s := hs'
        rw [hafter, ho] at ho'
        cases ho'
    · rw [Call.output_after_bare h.tended.sound ho fun a ha => hreserve ⟨a, ha⟩] at ho'
      cases ho'
  | some o =>
    obtain ⟨o', ho', hbottom, -, hcells⟩ := Call.cells_after h.tended ho hc
    refine ⟨htended, fun hnone => (nomatch hnone.symm.trans ho'), fun x hx i hi => ?_⟩
    obtain rfl : o' = x := Option.some_inj.1 (ho'.symm.trans hx)
    obtain ⟨hloose, hcell⟩ := hcells i hi
    rw [hcell, h.cells o ho i hloose, hbottom]

/-- As long as `calls` do not make the final pass, all words that no copy has are what they made of
    them. -/
theorem afterCalls (h : LooseByHand blocks hand s) {calls : List Call} (hcalls : s.Unpassed calls) :
    LooseByHand (blocks ++ s.blocks calls) (fun n => s.handmade n (hand n) calls) (s.afterCalls calls) := by
  induction calls generalizing s blocks hand with
  | nil =>
    rw [Session.blocks, List.append_nil]
    exact h
  | cons c rest ih =>
    have hlast := ih (h.after c hcalls.1) hcalls.2
    rw [List.append_assoc] at hlast
    exact hlast

theorem ofBegin {host : Host} {reservations : Reservations} {settings : Settings}
    {mapped? : Option (AddrRange .mapped)} {alive : Bool} (hhost : host.Sized)
    (hbegin : begin host reservations settings mapped? alive = .ok s) :
    LooseByHand [] (fun _ => (0, false)) s := by
  have hinside : s.Inside fun _ => True := inside_begin hhost hbegin
  have hspread : Spread [] s := spread_begin hbegin
  obtain ⟨-, d?, -, rfl⟩ := begin_eq_ok hbegin
  exact ⟨⟨hinside, hspread, fun w e he => (nomatch (Catalog.get?_empty w).symm.trans he)⟩, fun _ _ => rfl, nofun⟩

end LooseByHand

end Session

end SnapshotArchive
