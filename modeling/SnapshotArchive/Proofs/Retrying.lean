import Mathlib.Tactic.Common
import SnapshotArchive.Proofs.Finishing

/-!
Final passes that fail and are called again. A session is watched along its calls: what was last stored in
each word of the buffer by anything but the final pass, and how often passes have shifted the word since.
A word that a failed pass has shifted is shifted again by the next one if it happens to lead somewhere as
it stands; this cannot happen where the requested addresses lie apart from the buffer and the dependency.
-/

namespace SnapshotArchive

open SessionM Session

namespace Session

/-- Word `i` of the output buffer; zero as long as there is none. -/
def bufferWord (s : Session) (i : Nat) : Word :=
  (s.output?.map (·.buffer.words.read i)).getD 0

/-- A pass that begins now gets to slot `i` and shifts it: the slot is marked and not null, and no
    marked slot up to it leads nowhere. -/
def passes (s : Session) (i : Nat) : Bool :=
  s.output?.any fun o =>
    s.stage = .wired && o.pointers.has i && o.buffer.words.read i != 0 &&
      (List.range (i + 1)).all fun j =>
        !o.pointers.has j || o.buffer.words.read j == 0 || (s.landing o (o.buffer.words.read j)).isSome

/-- Where a word leads after it is shifted `n` times. -/
def landings (s : Session) (o : Output) : Nat → Word → Option Word
  | 0, w => some w
  | n + 1, w => (s.landings o n w).bind fun v => (s.landing o v).map UInt64.ofNat

/-- No requested address of the archive or of its dependency is an address of the used part of the
    buffer of `o` or of the dependency as it is mapped now. -/
def RangesApart (s : Session) (o : Output) : Prop :=
  ∀ w : Word, (o.requestedBottom.toNat ≤ w.toNat ∧
      w.toNat < o.requestedBottom.toNat + o.arena.pack.top ∨
    ∃ d, s.dependency? = some d ∧ d.requested.contains w = true) → ¬s.LeadsSomewhere o w

end Session

namespace Call

/-- The call `c` stores word `i` of the buffer. A call that sets one slot stores it, even if the
    word stays the same; of any other call it counts what changes. The final pass does not store: it
    shifts. -/
def stores (c : Call) (s : Session) (i : Nat) : Bool :=
  match c with
  | relocate => false
  | writeWord slot _ | setPointer slot _ | writePointer slot _ =>
    (c.run.perform s).1.toOption.isSome &&
      s.output?.any fun o => (o.buffer.slotOffset slot).toOption == some (i * wordBytes)
  | _ => (c.after s).bufferWord i != s.bufferWord i

/-- The call `c` shifts word `i` of the buffer. -/
def shifts (c : Call) (s : Session) (i : Nat) : Bool :=
  match c with
  | relocate => s.passes i
  | _ => false

end Call

/-- A session with the words that were last stored in its buffer, and how often each was shifted since. -/
structure Watch where
  session : Session
  stored : Nat → Word
  shifts : Nat → Nat

namespace Watch

/-- Nothing was stored in `s` yet. -/
def start (s : Session) : Watch := ⟨s, fun _ => 0, fun _ => 0⟩

/-- Watches the call `c`. -/
def after (v : Watch) (c : Call) : Watch where
  session := c.after v.session
  stored i := if c.stores v.session i then (c.after v.session).bufferWord i else v.stored i
  shifts i :=
    if c.stores v.session i then 0 else if c.shifts v.session i then v.shifts i + 1 else v.shifts i

/-- Watches some `calls`. -/
def afterCalls (v : Watch) (calls : List Call) : Watch := calls.foldl after v

end Watch

/-- Watches `s` from its beginning along some `calls`. -/
def Session.watch (s : Session) (calls : List Call) : Watch := (Watch.start s).afterCalls calls

namespace Watch

theorem session_afterCalls (calls : List Call) (v : Watch) :
    (v.afterCalls calls).session = v.session.afterCalls calls := by
  induction calls generalizing v with
  | nil => rfl
  | cons c rest ih => exact ih (v.after c)

/-- What was stored, shifted as often as `v` has counted, is what the buffer holds. -/
structure Holds (v : Watch) : Prop where
  sound : v.session.Sound
  bare : v.session.output? = none → ∀ i, v.stored i = 0
  early : v.session.stage ≠ .wired → v.session.stage ≠ .relocated → ∀ i, v.shifts i = 0
  words : ∀ o, v.session.output? = some o → ∀ i,
    v.session.landings o (v.shifts i) (v.stored i) = some (o.buffer.words.read i)

/-- What a marked word `i` of the archive `a` is: what was last stored there, shifted once by the
    last pass and once by each failed pass that got to it since. That is one shift, if no failed
    pass got to it; and none does where the ranges are apart. -/
structure Delivers (v : Watch) (o : Output) (a : Archive) (i : Nat) : Prop where
  landings : v.session.landings o (v.shifts i + 1) (v.stored i) = some (a.buffer.words.read i)
  once : v.shifts i = 0 → v.session.Shifts o a.requested (v.stored i) (a.buffer.words.read i)
  apart : v.session.RangesApart o → v.shifts i = 0

end Watch

namespace SessionM

open Session

variable {s s' : Session} {o o' : Output}

/-- The buffer stays where it is from `s` to `s'`, and so does where its pointers lead. -/
structure Stays (s s' : Session) : Prop where
  stage : s'.stage = s.stage
  dependency : s'.dependency? = s.dependency?
  room : ∀ o, s.output? = some o → ∃ o', s'.output? = some o' ∧ o.SameRoom o'

theorem Stays.refl (s : Session) : Stays s s := ⟨rfl, rfl, fun o ho => ⟨o, ho, .refl o⟩⟩

theorem Touches.stays (h : Touches s s') : Stays s s' := by
  rcases h with rfl | ⟨o, o', ho, hroom, rfl⟩
  · exact .refl _
  · refine ⟨rfl, rfl, fun o₁ ho₁ => ⟨o', rfl, ?_⟩⟩
    obtain rfl := Option.some_inj.1 (ho.symm.trans ho₁)
    exact hroom

theorem landing_congr (hdep : s'.dependency? = s.dependency?) (hbottom : o'.buffer.bottom = o.buffer.bottom)
    (hrequested : o'.requestedBottom = o.requestedBottom) (htop : o'.arena.pack.top = o.arena.pack.top)
    (w : Word) : s'.landing o' w = s.landing o w := by
  simp only [landing, hdep, hbottom, hrequested, htop]

theorem landings_congr (h : ∀ w, s'.landing o' w = s.landing o w) (n : Nat) (w : Word) :
    s'.landings o' n w = s.landings o n w := by
  induction n with
  | zero => rfl
  | succ n ih => simp only [landings, ih, h]

/-- Packing `a` again changes nothing. -/
theorem pack_pack (a : Arena) : a.pack.pack = a.pack := by
  rcases hc : a.current <;>
    simp only [Arena.pack, Arena.setCurrent, Arena.currentRegion, Arena.region, Region.pack, hc] <;>
    split <;> simp_all

/-- A pass over `o`, whether it gets to the end or not, shifts the slots that it gets to and leaves
    the others. -/
structure PassStep (s s' : Session) (o o' : Output) : Prop where
  output : s'.output? = some o'
  landing : ∀ w, s'.landing o' w = s.landing o w
  passed : ∀ i, s.passes i = true →
    ∃ n, s.landing o (o.buffer.words.read i) = some n ∧ o'.buffer.words.read i = UInt64.ofNat n
  others : ∀ i, s.passes i = false → o'.buffer.words.read i = o.buffer.words.read i

theorem passes_iff (ho : s.output? = some o) (hstage : s.stage = .wired) (i : Nat) :
    s.passes i = true ↔ o.pointers.has i = true ∧ o.buffer.words.read i ≠ 0 ∧
      ∀ j ≤ i, o.pointers.has j = true → o.buffer.words.read j ≠ 0 →
        (s.landing o (o.buffer.words.read j)).isSome = true := by
  simp only [passes, ho, hstage, Option.any_some, decide_true, Bool.true_and, Bool.and_eq_true,
    bne_iff_ne, List.all_eq_true, List.mem_range, Nat.lt_succ_iff, Bool.or_eq_true, Bool.not_eq_true',
    beq_iff_eq, and_assoc]
  refine and_congr_right fun _ => and_congr_right fun _ => forall₂_congr fun j _ => ?_
  rcases o.pointers.has j <;> by_cases hz : o.buffer.words.read j = 0 <;> simp [hz]

theorem Landed.passStep (h : Landed s o o') (ho : s.output? = some o) (hstage : s.stage = .wired) :
    PassStep s { s with output? := some o', stage := .relocated } o o' where
  output := rfl
  landing := landing_congr rfl h.bottom h.requested (by rw [h.arena, pack_pack])
  passed i hi := by
    obtain ⟨hmark, hne, -⟩ := (passes_iff ho hstage i).1 hi
    exact h.marked i hmark hne
  others i hi := by
    refine h.others i ?_
    by_contra hpointer
    rw [not_or, Bool.not_eq_false] at hpointer
    refine Bool.false_ne_true (hi.symm.trans ((passes_iff ho hstage i).2 ⟨hpointer.1, hpointer.2, ?_⟩))
    intro j _ hj hj0
    obtain ⟨n, hn, -⟩ := h.marked j hj hj0
    exact Option.isSome_iff_exists.2 ⟨n, hn⟩

theorem Halted.passStep {k : Nat} (h : Halted s o k o') (ho : s.output? = some o)
    (hstage : s.stage = .wired) : PassStep s { s with output? := some o' } o o' where
  output := rfl
  landing := by
    obtain ⟨top?, hroom⟩ := h.room
    exact landing_congr rfl hroom.bottom hroom.requested (by
      rw [hroom.arena]
      exact congrArg Arena.top (pack_pack o.arena))
  passed i hi := by
    obtain ⟨hmark, hne, hall⟩ := (passes_iff ho hstage i).1 hi
    obtain ⟨hk, hk0, hnone, -⟩ := h.offends
    refine h.below i (Nat.lt_of_not_le fun hki => ?_) hmark hne
    have hsome := hall k hki hk hk0
    rw [hnone] at hsome
    cases hsome
  others i hi := by
    refine h.others i ?_
    by_contra hpointer
    rw [not_or, not_or, Bool.not_eq_false, Nat.not_le] at hpointer
    obtain ⟨hmark, hne, hik⟩ := hpointer
    refine Bool.false_ne_true (hi.symm.trans ((passes_iff ho hstage i).2 ⟨hmark, hne, ?_⟩))
    intro j hji hj hj0
    obtain ⟨n, hn, -⟩ := h.below j (Nat.lt_of_le_of_lt hji hik) hj hj0
    exact Option.isSome_iff_exists.2 ⟨n, hn⟩

/-- What calling the final pass does to a wired session. -/
theorem passStep_relocate (h : s.Sound) (hstage : s.stage = .wired) :
    ∃ o o', s.output? = some o ∧ PassStep s (Call.relocate.after s) o o' ∧
      ((Call.relocate.after s).stage = .wired ∨ (Call.relocate.after s).stage = .relocated) := by
  obtain ⟨o, ho⟩ := Sound.output_of_rank h (by rw [hstage]; decide)
  have hpass := (triple_relocate_halted h ho hstage).perform rfl
  change (∃ _, _ ∧ ∃ o', Landed s o o' ∧ Call.relocate.after s = _) ∨
    (∃ _, _ ∧ ∃ k o', Halted s o k o' ∧ _ ∧ Call.relocate.after s = _) at hpass
  rcases hpass with ⟨-, -, o', hland, hs⟩ | ⟨-, -, k, o', hhalt, -, hs⟩ <;> rw [hs]
  · exact ⟨o, o', ho, hland.passStep ho hstage, .inr rfl⟩
  · exact ⟨o, o', ho, hhalt.passStep ho hstage, .inl hstage⟩

/-- What `R` says of both outcomes of `m` holds of the session afterwards. -/
theorem Triple.after {α : Type} {m : SessionM α} {R : Session → Prop}
    (h : Triple (· = s) m (fun _ => R) (fun _ => R)) : R (m.perform s).2.session := by
  obtain ⟨_, -, hs⟩ | ⟨_, -, hs⟩ := h.perform rfl <;> exact hs

theorem stays_outOfOrder {t : Stage} {step : String} {m : Unit → SessionM Unit} (h : s.stage ≠ t) :
    Stays s ((requireStage t step >>= m).perform s).2.session :=
  ((triple_outOfOrder (Q := fun _ => Stays s) h).conseq (fun _ hs => hs) (fun _ _ hs => hs)
    fun _ _ hs => hs.1 ▸ .refl s).after

theorem stays_touching {m : SessionM Unit} (h : Touching s m) : Stays s (m.perform s).2.session :=
  (h.conseq (fun _ hs => hs) (fun _ _ hs => hs.stays) fun _ _ hs => hs.stays).after

theorem stays_allocateOther (h : s.Sound) (hrank : 5 ≤ s.stage.rank) (bytes : Nat) :
    Stays s ((allocateOther bytes >>= fun _ => pure ()).perform s).2.session := by
  refine Triple.after (Triple.bind (Q := fun _ => Stays s) ?_ fun _ _ hs => hs)
  refine (triple_allocateOther h.arenas bytes).conseq (fun _ hs => hs) ?_
    fun _ _ hs => hs.1 ▸ .refl s
  rintro _ s' ⟨hbefore, -⟩
  have hlt : s.stage.rank < 5 := of_decide_eq_true hbefore
  omega

theorem stays_recordReplaced (former substitute : Word) :
    Stays s ((recordReplaced former substitute).perform s).2.session := by
  refine ((triple_recordReplaced s former substitute).conseq (fun _ hs => hs) ?_
    fun _ _ hs => hs ▸ .refl s).after
  rintro _ _ ⟨-, e, -, -, -, -, rfl⟩
  exact ⟨rfl, rfl, fun o ho => ⟨o, ho, .refl o⟩⟩

end SessionM

namespace Call

variable {s : Session} {c : Call} {i : Nat}

/-- Once the pointers are wired, any call `c` but the final pass leaves the buffer where it is. -/
theorem stays_after (h : s.Sound) (hrank : 5 ≤ s.stage.rank) : ∀ c : Call, c ≠ relocate →
    Stays s (c.after s)
  | gather _, _ | reserveBuffer _, _ | copyMutable _, _ | copyReadOnly _, _ | wire, _ =>
    stays_outOfOrder fun hstage => by rw [hstage] at hrank; exact absurd hrank (by decide)
  | allocateOther bytes, _ => stays_allocateOther h hrank bytes
  | recordReplaced former substitute, _ => stays_recordReplaced former substitute
  | verifyEstimate estimate label, _ => stays_touching (touching_verifyEstimate estimate label)
  | writeWord slot w, _ => stays_touching (slotting_writeWord slot w).touching
  | markPointer slot, _ => stays_touching (slotting_markPointer slot).touching
  | setPointer slot value, _ => stays_touching (slotting_setPointer slot value).touching
  | clearPointer slot, _ => stays_touching (slotting_clearPointer slot).touching
  | writePointer slot source?, _ => stays_touching (slotting_writePointer slot source?).touching
  | relocate, hc => absurd rfl hc

/-- A slot that the operation `m` does not set keeps its word. -/
theorem bufferWord_slotting {slot : Addr .buffer} {m : SessionM Unit} (h : Slotting slot s m)
    (hi : ((m.perform s).1.toOption.isSome && s.output?.any fun o =>
      (o.buffer.slotOffset slot).toOption == some (i * wordBytes)) = false) :
    (m.perform s).2.session.bufferWord i = s.bufferWord i := by
  obtain ⟨_, hok, o, o', n, ho, hn, hchange, hs⟩ | ⟨_, -, hs⟩ := h.perform rfl
  · rw [hs, bufferWord, bufferWord, ho]
    refine hchange.words i fun hin => ?_
    obtain ⟨k, rfl⟩ := (Buffer.slotOffset_eq_ok_iff.1 hn).2.1
    obtain rfl : i = k := by simpa [wordBytes] using hin
    simp [hok, ho, hn, Except.toOption, wordBytes, Nat.mul_comm] at hi
  · rw [hs]

/-- A word `i` that a call `c` neither stores nor shifts stays. -/
theorem bufferWord_after (hc : c ≠ relocate) (hi : c.stores s i = false) :
    (c.after s).bufferWord i = s.bufferWord i := by
  cases c with
  | relocate => exact absurd rfl hc
  | writeWord slot w => exact bufferWord_slotting (slotting_writeWord slot w) hi
  | setPointer slot value => exact bufferWord_slotting (slotting_setPointer slot value) hi
  | writePointer slot source? => exact bufferWord_slotting (slotting_writePointer slot source?) hi
  | _ => simpa only [stores, bne_eq_false_iff_eq] using hi

theorem shifts_eq_false (hc : c ≠ relocate) (i : Nat) : c.shifts s i = false := by
  cases c with
  | relocate => exact absurd rfl hc
  | _ => rfl

end Call

namespace Watch

variable {v : Watch} {c : Call}

theorem Holds.stored_eq (h : v.Holds) {i : Nat} (hzero : v.shifts i = 0) :
    v.stored i = v.session.bufferWord i := by
  rcases ho : v.session.output? with - | o
  · simp [bufferWord, ho, h.bare ho i]
  · have hword := h.words o ho i
    rw [hzero] at hword
    simpa [bufferWord, ho] using Option.some_inj.1 hword

theorem rank_of_late {s : Stage} (h : ¬(s ≠ .wired ∧ s ≠ .relocated)) : 5 ≤ s.rank := by
  cases s <;> simp_all [Stage.rank]

/-- A call `c` other than the final pass stores words or leaves them. -/
theorem Holds.other (h : v.Holds) (hc : c ≠ .relocate) : (v.after c).Holds := by
  have hsound := c.sound_after h.sound
  have hshifts : ∀ i, (v.after c).shifts i = if c.stores v.session i then 0 else v.shifts i :=
    fun i => by simp [Watch.after, Call.shifts_eq_false hc]
  have hstored : ∀ i, (v.after c).shifts i = 0 →
      (v.after c).stored i = (v.after c).session.bufferWord i := by
    intro i hi
    by_cases hs : c.stores v.session i = true
    · exact if_pos hs
    · rw [hshifts, if_neg hs] at hi
      change (if c.stores v.session i = true then _ else _) = _
      rw [if_neg hs, h.stored_eq hi]
      exact (Call.bufferWord_after hc (Bool.eq_false_iff.2 hs)).symm
  -- before the objects are wired no pass has run, so nothing was shifted
  by_cases hlate : v.session.stage ≠ .wired ∧ v.session.stage ≠ .relocated
  · have hzero : ∀ i, (v.after c).shifts i = 0 := fun i => by
      rw [hshifts, h.early hlate.1 hlate.2, ite_self]
    refine ⟨hsound, fun ho i => ?_, fun _ _ => hzero, fun o ho i => ?_⟩
    · rw [hstored i (hzero i), bufferWord, ho]
      rfl
    · rw [hzero, hstored i (hzero i), bufferWord, ho]
      rfl
  · have hrank := rank_of_late hlate
    have hstays := Call.stays_after h.sound hrank c hc
    refine ⟨hsound, fun ho => ?_, fun h₁ h₂ => ?_, fun o' ho' i => ?_⟩
    · obtain ⟨o, ho₀⟩ := Sound.output_of_rank h.sound (by omega)
      obtain ⟨o', ho', -⟩ := hstays.room o ho₀
      exact absurd (ho.symm.trans ho') nofun
    · exact absurd ⟨hstays.stage ▸ h₁, hstays.stage ▸ h₂⟩ hlate
    · by_cases hs : c.stores v.session i = true
      · have hi : (v.after c).shifts i = 0 := by rw [hshifts, if_pos hs]
        rw [hi, hstored i hi, bufferWord, ho']
        rfl
      · obtain ⟨o, ho⟩ := Sound.output_of_rank h.sound (by omega)
        obtain ⟨o₁, ho₁, hroom⟩ := hstays.room o ho
        obtain rfl := Option.some_inj.1 (ho₁.symm.trans ho')
        have hword := Call.bufferWord_after hc (Bool.eq_false_iff.2 hs)
        simp only [bufferWord, ho, ho₁, Option.map_some, Option.getD_some] at hword
        have hsame : (v.after c).stored i = v.stored i := if_neg hs
        rw [hshifts, if_neg hs, hsame, hword]
        refine (landings_congr (fun w => ?_) _ _).trans (h.words o ho i)
        exact landing_congr hstays.dependency hroom.bottom hroom.requested (by rw [hroom.arena]) w

/-- The final pass shifts words or leaves them. -/
theorem Holds.pass (h : v.Holds) : (v.after .relocate).Holds := by
  have hsound := Call.sound_after .relocate h.sound
  have hshifts : ∀ i, (v.after .relocate).shifts i =
      if v.session.passes i then v.shifts i + 1 else v.shifts i := fun _ => rfl
  by_cases hstage : v.session.stage = .wired
  · obtain ⟨o, o', ho, hstep, hlate⟩ := passStep_relocate h.sound hstage
    refine ⟨hsound, fun hnone => absurd (hnone.symm.trans hstep.output) nofun, fun h₁ h₂ => ?_,
      fun o₁ ho₁ i => ?_⟩
    · exact (hlate.elim h₁ h₂).elim
    · obtain rfl := Option.some_inj.1 (hstep.output.symm.trans ho₁)
      refine (landings_congr hstep.landing _ _).trans ?_
      have hword := h.words o ho i
      rw [hshifts]
      change Session.landings v.session o _ (v.stored i) = _
      by_cases hi : v.session.passes i = true
      · obtain ⟨n, hn, hshifted⟩ := hstep.passed i hi
        rw [if_pos hi, landings, hword, Option.bind_some, hn, hshifted]
        rfl
      · rw [if_neg hi, hword, hstep.others i (Bool.eq_false_iff.2 hi)]
  · have hsame : (v.after .relocate).session = v.session :=
      ((triple_outOfOrder (Q := fun _ s' => s' = v.session) hstage).conseq (fun _ hs => hs)
        (fun _ _ hs => hs) fun _ _ hs => hs.1).after
    have hnever : ∀ i, v.session.passes i = false := by simp [passes, hstage]
    have hunwatched : v.after .relocate = v := by
      simp [Watch.after, Call.stores, Call.shifts, hnever] at hsame ⊢
      rw [hsame]
    rwa [hunwatched]

theorem Holds.after (h : v.Holds) (c : Call) : (v.after c).Holds := by
  by_cases hc : c = .relocate
  · exact hc ▸ h.pass
  · exact h.other hc

theorem Holds.afterCalls (h : v.Holds) (calls : List Call) : (v.afterCalls calls).Holds := by
  induction calls generalizing v with
  | nil => exact h
  | cons c rest ih => exact ih (h.after c)

/-- A session `s` that has just begun has no buffer, and nothing was stored. -/
theorem holds_start {s : Session} (h : s.Sound) (hnew : s.output? = none) : (start s).Holds where
  sound := h
  bare := fun _ _ => rfl
  early := fun _ _ _ => rfl
  words := fun _ ho => nomatch hnew.symm.trans ho

end Watch

namespace Session

variable {s : Session} {o o' : Output}

/-- A word `v` that was shifted leads nowhere, where the ranges are apart. -/
theorem RangesApart.not_leadsSomewhere (h : s.RangesApart o) (hs : s.Sound) (hl : Landed s o o')
    {n : Nat} {w v : Word} (hv : s.landings o (n + 1) w = some v) : ¬s.LeadsSomewhere o v := by
  obtain ⟨u, -, hu⟩ := Option.bind_eq_some_iff.1 hv
  obtain ⟨m, hm, rfl⟩ := Option.map_eq_some_iff.1 hu
  obtain ⟨top, -, htop⟩ := hl.top
  have hlimit := top.toNat_lt
  refine h _ ?_
  rcases landing_eq_some hs hm with hown | ⟨d, hd, -, hlow, hhigh, -⟩
  · rw [UInt64.toNat_ofNat_of_lt' (show m < addressLimit by omega)]
    exact .inl hown
  · have hdtop := d.requested.top.toNat_lt
    refine .inr ⟨d, hd, AddrRange.contains_iff.2 ?_⟩
    rw [UInt64.toNat_ofNat_of_lt' (show m < addressLimit by omega)]
    exact ⟨hlow, hhigh⟩

theorem buffer_of_archive? {a : Archive} (h : s.archive? = some a) (ho : s.output? = some o) :
    a.buffer = o.buffer := by
  obtain ⟨-, o', _, ho', rfl⟩ := archive?_eq_some h
  obtain rfl := Option.some_inj.1 (ho.symm.trans ho')
  rfl

/-- When the final pass succeeds, whatever `calls` were made before it, every marked word of the
    archive is what was last stored there, shifted once by this pass and once by each failed pass
    since that got to it. -/
theorem relocate_shifts_stored {host : Host} {reservations : Reservations} {settings : Settings}
    {mapped? : Option (AddrRange .mapped)} {alive : Bool}
    (hbegin : begin host reservations settings mapped? alive = .ok s) (calls : List Call)
    (hok : (relocate.perform (s.afterCalls calls)).1 = .ok ()) :
    (s.watch calls).session = s.afterCalls calls ∧
    ∃ o a, (s.watch calls).session.output? = some o ∧
      (Call.relocate.after (s.watch calls).session).archive? = some a ∧
      ∀ i, a.pointers.has i = true → (s.watch calls).Delivers o a i := by
  have hsession : (s.watch calls).session = s.afterCalls calls := Watch.session_afterCalls calls _
  have hnew : s.output? = none := by
    obtain ⟨-, d?, -, rfl⟩ := begin_eq_ok hbegin
    rfl
  have hholds : (s.watch calls).Holds := (Watch.holds_start (sound_begin hbegin) hnew).afterCalls calls
  refine ⟨hsession, ?_⟩
  rw [← hsession] at hok
  generalize s.watch calls = v at hholds hok ⊢
  have hsound := hholds.sound
  have hstage : v.session.stage = .wired := by
    by_contra hstage
    obtain ⟨_, hok', hfalse⟩ | ⟨_, herror, -⟩ :=
      (triple_outOfOrder (Q := fun _ _ => False) hstage).perform rfl
    · exact hfalse
    · exact nomatch hok.symm.trans herror
  obtain ⟨o, ho⟩ := Sound.output_of_rank hsound (by rw [hstage]; decide)
  obtain ⟨_, -, o', hland, hs'⟩ | ⟨_, herror, -⟩ :=
    (triple_relocate_halted hsound ho hstage).perform rfl
  swap
  · exact nomatch hok.symm.trans herror
  obtain ⟨a, harchive, hfin⟩ := finished_of_landed hsound hland
  refine ⟨o, a, ho, (congrArg archive? hs').trans harchive, fun i hi => ?_⟩
  rw [hfin.marks, Bool.and_eq_true, bne_iff_ne] at hi
  obtain ⟨hmark, hne⟩ := hi
  have hword := hholds.words o ho i
  obtain ⟨n, hn, hlanded⟩ := hland.marked i hmark hne
  refine ⟨?_, fun hzero => ?_, fun hapart => ?_⟩
  · rw [landings, hword, Option.bind_some, hn, buffer_of_archive? harchive rfl, hlanded]
    rfl
  · rw [hzero] at hword
    rw [Option.some_inj.1 hword]
    exact hfin.pointers i hmark hne
  · -- where the ranges are apart, a word that was shifted before would lead nowhere now
    by_contra hshifts
    obtain ⟨k, hk⟩ := Nat.exists_eq_succ_of_ne_zero hshifts
    rw [hk] at hword
    exact hapart.not_leadsSomewhere hsound hland hword
      ((landing_isSome _).1 (Option.isSome_iff_exists.2 ⟨n, hn⟩))

/-- A session over two objects that point at each other, for an archive at `base`. -/
def pairFresh (base : Word) : Session :=
  fresh pairHeap.toHost ⟨⟨0x20000⟩, 0x1000, room_fits⟩ ⟨base, 8, 0, false⟩ none

/-- A final pass that fails at a slot, which is then set to the first copy. -/
def retriedCalls (slot : Addr .buffer) : List Call :=
  [.gather [0x100000000000], .reserveBuffer ⟨0, 0, 0⟩, .copyMutable noTables, .copyReadOnly noTables,
    .wire, .writeWord slot 0x100000000000, .markPointer slot, .relocate, .setPointer slot ⟨0x20010⟩]

/-- The first marked word is bad, so that no word is shifted by the pass that fails. -/
theorem relocate_shifts_stored_retried :
    begin pairHeap.toHost ⟨⟨0x20000⟩, 0x1000, by decide⟩ ⟨0x8000, 8, 0, false⟩ none false =
      .ok (pairFresh 0x8000) ∧
    (relocate.perform ((pairFresh 0x8000).afterCalls (retriedCalls ⟨0x20010⟩))).1 = .ok () ∧
    ((pairFresh 0x8000).watch (retriedCalls ⟨0x20010⟩)).shifts 2 = 0 ∧
    ∃ o a, ((pairFresh 0x8000).watch (retriedCalls ⟨0x20010⟩)).session.output? = some o ∧
      (Call.relocate.after ((pairFresh 0x8000).watch (retriedCalls ⟨0x20010⟩)).session).archive? = some a ∧
      ∀ i, a.pointers.has i = true →
        ((pairFresh 0x8000).watch (retriedCalls ⟨0x20010⟩)).Delivers o a i := by
  have hbegin : begin pairHeap.toHost ⟨⟨0x20000⟩, 0x1000, by decide⟩ ⟨0x8000, 8, 0, false⟩ none false =
      .ok (pairFresh 0x8000) := begin_fresh (by decide +kernel)
  have hok : (relocate.perform ((pairFresh 0x8000).afterCalls (retriedCalls ⟨0x20010⟩))).1 = .ok () := by
    decide +kernel
  exact ⟨hbegin, hok, by decide +kernel, (relocate_shifts_stored hbegin _ hok).2⟩

/-- Where the requested addresses overlap the buffer, a word may be shifted twice. -/
example :
    let v := (pairFresh 0x20008).watch (retriedCalls ⟨0x20018⟩)
    (relocate.perform v.session).1.toOption = some () ∧ v.stored 2 = 0x20020 ∧ v.shifts 2 = 1 ∧
      (Call.relocate.after v.session).bufferWord 2 = 0x20030 := by
  decide +kernel

end Session

end SnapshotArchive
