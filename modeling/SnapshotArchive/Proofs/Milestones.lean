import Mathlib.Tactic.Common
import SnapshotArchive.Proofs.Finishing
import SnapshotArchive.Session.Offsets

/-!
The order of the steps, and that finished archives are final. A chronicle is a session with the steps that
succeeded in it, also those that a whole build takes and those that are called while a build freezes its
copies. Whatever is called, and whether or not it fails, each step succeeds once and after all steps before
it; there is an archive exactly when the last one has succeeded, and from then on it stays the same.
-/

namespace SnapshotArchive

open SessionM Session

/-- The steps on the way to an archive. -/
inductive Milestone where
  | gather | reserveBuffer | copyMutable | copyReadOnly | wire | relocate
  deriving DecidableEq

namespace Milestone

/-- All steps, in their order. -/
def all : List Milestone := [gather, reserveBuffer, copyMutable, copyReadOnly, wire, relocate]

/-- How many steps come before. -/
def rank : Milestone → Nat
  | gather => 0
  | reserveBuffer => 1
  | copyMutable => 2
  | copyReadOnly => 3
  | wire => 4
  | relocate => 5

theorem take_succ (m : Milestone) : all.take (m.rank + 1) = all.take m.rank ++ [m] := by
  cases m <;> rfl

/-- The last step is among the first `t.rank` ones only if these are all. -/
theorem relocate_mem_take (t : Stage) : relocate ∈ all.take t.rank ↔ t = .relocated := by
  cases t <;> decide

end Milestone

/-- The step that is called. -/
def Call.milestone? : Call → Option Milestone
  | gather _ => some .gather
  | reserveBuffer _ => some .reserveBuffer
  | copyMutable _ => some .copyMutable
  | copyReadOnly _ => some .copyReadOnly
  | wire => some .wire
  | relocate => some .relocate
  | _ => none

/-- What may be asked of a session. -/
inductive Query where
  | outputAddr (source : Word)
  | sourceAddr (target : Addr .buffer)
  | toRequested (a : Addr .buffer)
  | bufferOffset (a : Addr .buffer)
  | chainOffset (w : Word)
  | logMap
  | printStats

/-- Asks a query, and forgets the answer. -/
def Query.run : Query → SessionM Unit
  | outputAddr source => SessionM.outputAddr source >>= fun _ => pure ()
  | sourceAddr target => SessionM.sourceAddr target >>= fun _ => pure ()
  | toRequested a => SessionM.toRequested a >>= fun _ => pure ()
  | bufferOffset a => SessionM.bufferOffset a >>= fun _ => pure ()
  | chainOffset w => SessionM.chainOffset w >>= fun _ => pure ()
  | logMap => SessionM.logMap
  | printStats => SessionM.printStats

/-- A session with what it told, and the steps that succeeded in it, in their order. -/
structure Chronicle where
  run : Run
  passed : List Milestone

/-- Operations on a session whose steps are noted. -/
abbrev ChronicleM := ExceptT Failure (StateM Chronicle)

namespace ChronicleM

variable {α : Type}

/-- An operation `m` that is no step. -/
def unnoted (m : SessionM α) : ChronicleM α :=
  ExceptT.mk fun c => ((m.run.run c.run).1, { c with run := (m.run.run c.run).2 })

/-- A `step` that is noted as `m` once it has succeeded. -/
def noted (m : Milestone) (step : SessionM Unit) : ChronicleM Unit := do
  unnoted step
  modify fun c => { c with passed := c.passed ++ [m] }

/-- Makes an archive of `roots`; each step is noted. -/
def build (roots : List Word) (advisories : Advisories) (templates : List DispatchTemplate)
    (freeze : ChronicleM Unit) : ChronicleM Unit := do
  noted .gather (SessionM.gather roots)
  noted .reserveBuffer (SessionM.reserveBuffer
    { advisories with other := satAdd advisories.other (DispatchTables.estimate templates) })
  let tables ← unnoted (prepareTables templates)
  noted .copyMutable (SessionM.copyMutable tables.provider)
  noted .copyReadOnly (SessionM.copyReadOnly tables.provider)
  noted .wire SessionM.wire
  freeze
  noted .relocate SessionM.relocate

/-- Goes on whether or not `m` fails. -/
def attempt (m : ChronicleM Unit) : ChronicleM Unit :=
  ExceptT.mk ((fun _ => .ok ()) <$> m.run)

/-- The operation `m` is `m'` but for the notes. -/
def Erases (m : ChronicleM α) (m' : SessionM α) : Prop :=
  ∀ c, m'.run.run c.run = ((m.run.run c).1, (m.run.run c).2.run)

variable {β : Type}

theorem Erases.bind {m : ChronicleM α} {m' : SessionM α} {f : α → ChronicleM β} {f' : α → SessionM β}
    (hm : Erases m m') (hf : ∀ a, Erases (f a) (f' a)) : Erases (m >>= f) (m' >>= f') := by
  intro c
  rw [ExceptT.run_bind, ExceptT.run_bind, StateT.run_bind, StateT.run_bind, hm c]
  rcases m.run.run c with ⟨_ | a, c₁⟩
  · rfl
  · exact hf a c₁

theorem erases_unnoted (m : SessionM α) : Erases (unnoted m) m := fun _ => rfl

theorem erases_noted (m : Milestone) (step : SessionM Unit) : Erases (noted m step) step := by
  intro c
  unfold noted
  rw [ExceptT.run_bind, StateT.run_bind, erases_unnoted step c]
  rcases (unnoted step).run.run c with ⟨_ | _, _⟩ <;> rfl

/-- A noted build is the build. -/
theorem erases_build (roots : List Word) (advisories : Advisories) (templates : List DispatchTemplate)
    {freeze : ChronicleM Unit} {freeze' : SessionM Unit} (hfreeze : Erases freeze freeze') :
    Erases (build roots advisories templates freeze)
      (SessionM.build roots advisories templates freeze') := by
  unfold build SessionM.build assemble
  simp only [bind_assoc]
  refine .bind (erases_noted _ _) fun _ => .bind (erases_noted _ _) fun _ => ?_
  refine .bind (erases_unnoted _) fun tables => ?_
  refine .bind (erases_noted _ _) fun _ => .bind (erases_noted _ _) fun _ => .bind (erases_noted _ _) fun _ => ?_
  exact .bind hfreeze fun _ => erases_noted _ _

end ChronicleM

/-- What callers do with a session. The freezing of copies may do anything as well, and then goes on or
    gives up. -/
inductive Operation where
  | call (c : Call)
  | query (q : Query)
  | build (roots : List Word) (advisories : Advisories) (templates : List DispatchTemplate)
      (freeze : List Operation) (verdict : Except Failure Unit)

open ChronicleM

mutual

/-- Does what a caller does, and notes the steps. -/
def Operation.run : Operation → ChronicleM Unit
  | .call c =>
    match c.milestone? with
    | some m => noted m c.run
    | none => unnoted c.run
  | .query q => unnoted q.run
  | .build roots advisories templates freeze verdict =>
    ChronicleM.build roots advisories templates do
      Operation.runAll freeze
      unnoted (ofFailure verdict)

/-- Does one thing after the other, also after failures. -/
def Operation.runAll : List Operation → ChronicleM Unit
  | [] => pure ()
  | operation :: rest => do
    attempt (Operation.run operation)
    Operation.runAll rest

end

/-- The chronicle of `s` after some `operations`. -/
def Session.chronicle (s : Session) (operations : List Operation) : Chronicle :=
  ((Operation.runAll operations).run.run ⟨⟨s, #[]⟩, []⟩).2

namespace SessionM

variable {α β : Type} {s s' s'' : Session}

/-- The session stays at its stage from `s` to `s'`, and a finished archive stays as it is. -/
structure Rests (s s' : Session) : Prop where
  sound : s'.Sound
  stage : s'.stage = s.stage
  output : s.stage = .relocated → s'.output? = s.output?

theorem Rests.refl (h : s.Sound) : Rests s s := ⟨h, rfl, fun _ => rfl⟩

theorem Rests.trans (h : Rests s s') (h' : Rests s' s'') : Rests s s'' :=
  ⟨h'.sound, h'.stage.trans h.stage, fun hs => (h'.output (h.stage.trans hs)).trans (h.output hs)⟩

theorem Rests.archive (h : Rests s s') (hstage : s.stage = .relocated) : s'.archive? = s.archive? := by
  unfold archive?
  rw [h.stage, h.output hstage]

/-- The step `m` takes the session from its stage to the next one. -/
structure Passes (m : Milestone) (s s' : Session) : Prop where
  sound : s'.Sound
  before : s.stage.rank = m.rank
  after : s'.stage.rank = m.rank + 1
  archive : s'.stage = .relocated → s'.archive?.isSome = true

/-- The operation `m` on `s` is no step. -/
abbrev Resting (s : Session) (m : SessionM α) : Prop :=
  Triple (· = s) m (fun _ => Rests s) (fun _ => Rests s)

/-- The operation `step` on `s` is the step `m` if it succeeds. -/
abbrev Passing (m : Milestone) (s : Session) (step : SessionM Unit) : Prop :=
  Triple (· = s) step (fun _ => Passes m s) (fun _ => Rests s)

/-- The operation `m` changes nothing of `s`, whether or not it answers. -/
abbrev Asking (s : Session) (m : SessionM α) : Prop :=
  Triple (· = s) m (fun _ s' => s' = s) (fun _ s' => s' = s)

theorem Asking.resting {m : SessionM α} (h : Asking s m) (hs : s.Sound) : Resting s m :=
  h.conseq (fun _ h => h) (fun _ _ h => by rw [h]; exact .refl hs) fun _ _ h => by rw [h]; exact .refl hs

theorem Resting.pure (h : s.Sound) (a : α) : Resting s (pure a : SessionM α) := by
  rintro r rfl
  exact .refl h

/-- What is done one after the other, `m` and then `f`, rests if each part does. -/
theorem Resting.bind {m : SessionM α} {f : α → SessionM β} (hm : Resting s m)
    (hf : ∀ a s', s'.Sound → Resting s' (f a)) : Resting s (m >>= f) := by
  refine Triple.bind hm fun a r hr => (hf a r.session hr.sound).use rfl ?_ ?_
  · exact fun _ _ h => hr.trans h
  · exact fun _ _ h => hr.trans h

/-- After the last step the output is closed: `f` is not reached. -/
theorem asking_closed {step : String} {f : Output → SessionM α} (h : s.stage = .relocated) :
    Asking s (openOutput step >>= f) := by
  rintro r rfl
  rw [wp_bind, wp_openOutput, h]
  cases r.session.output? <;> rfl

/-- An operation `m` that changes contents only, and nothing after the last step, is no step. -/
theorem Touching.resting {m : SessionM α} (h : Touching s m) (hs : s.Sound)
    (hclosed : s.stage = .relocated → Asking s m) : Resting s m := by
  by_cases hstage : s.stage = .relocated
  · exact (hclosed hstage).resting hs
  · have hrests : ∀ s', Touches s s' → Rests s s' := fun s' ht =>
      ⟨ht.sound hs, ht.stage, fun hrelocated => absurd hrelocated hstage⟩
    exact h.conseq (fun _ h => h) (fun _ s' => hrests s') fun _ s' => hrests s'

section Rest

variable {slot : Addr .buffer}

theorem resting_allocateOther (h : s.Sound) (bytes : Nat) : Resting s (allocateOther bytes) := by
  have hallocate := triple_allocateOther h.arenas bytes
  refine ((keeps_allocateOther bytes).and hallocate).conseq (fun _ hs => ⟨hs ▸ h, hs⟩) ?_ ?_
  · rintro _ s' ⟨hsound, hbefore, o, t, stats, -, -, -, -, -, -, rfl⟩
    refine ⟨hsound, rfl, fun hstage => ?_⟩
    rw [hstage] at hbefore
    cases hbefore
  · rintro _ s' ⟨-, rfl, -⟩
    exact .refl h

theorem resting_recordReplaced (h : s.Sound) (former substitute : Word) :
    Resting s (recordReplaced former substitute) := by
  have hrecord := triple_recordReplaced s former substitute
  refine ((keeps_recordReplaced former substitute).and hrecord).conseq (fun _ hs => ⟨hs ▸ h, hs⟩) ?_ ?_
  · rintro _ s' ⟨hsound, -, halias⟩
    exact ⟨hsound, halias.stage.1, fun _ => halias.stage.2⟩
  · rintro _ s' ⟨-, rfl⟩
    exact .refl h

theorem resting_writeWord (h : s.Sound) (w : Word) : Resting s (writeWord slot w) :=
  (slotting_writeWord slot w).touching.resting h asking_closed

theorem resting_writePointer (h : s.Sound) (source? : Option Word) :
    Resting s (writePointer slot source?) := by
  refine (slotting_writePointer slot source?).touching.resting h fun hstage => ?_
  rintro r rfl
  unfold writePointer
  simp only [wp_bind, wp_session]
  split
  · rfl
  · rw [wp_bind]
    refine (triple_pointerTo _ source?).use rfl (fun w r' hr' => ?_) fun _ _ h => h
    exact asking_closed (f := fun o => ofViolation (o.buffer.slotOffset slot) >>= fun offset =>
      if w = 0 then ofViolation ((o.write offset 0).clear offset) >>= setOutput
      else changeOutput (·.setPointer offset w)) hstage r' hr'

theorem Resting.forM {f : α → SessionM Unit} (hf : ∀ a s, s.Sound → Resting s (f a)) (as : List α)
    (h : s.Sound) : Resting s (as.forM f) := by
  induction as generalizing s with
  | nil => exact .pure h ()
  | cons a rest ih =>
    change Resting s (f a >>= fun _ => rest.forM f)
    exact (hf a s h).bind fun _ s' hs' => ih hs'

theorem resting_prepareTable (h : s.Sound) (t : DispatchTemplate) : Resting s (prepareTable t) := by
  refine (resting_allocateOther h _).bind fun table s₁ h₁ => ?_
  refine (Resting.forM (fun _ _ hs => resting_writeWord hs _) _ h₁).bind fun _ s₂ h₂ => ?_
  exact Resting.bind (fun r hr => by subst hr; exact .refl h₂) fun _ _ h₃ => .pure h₃ table

theorem resting_prepareTables (h : s.Sound) (templates : List DispatchTemplate) :
    Resting s (prepareTables templates) := by
  unfold prepareTables
  generalize (KindMap.empty : DispatchTables) = tables
  induction templates generalizing s tables with
  | nil => exact .pure h tables
  | cons t rest ih =>
    rw [List.foldlM_cons, bind_assoc]
    exact (resting_prepareTable h t).bind fun table s' hs' => ih hs' _

theorem asking_toRequested (a : Addr .buffer) : Asking s (toRequested a) := by
  rintro r rfl
  unfold toRequested
  rw [wp_bind, wp_output]
  cases r.session.output? with
  | none => rfl
  | some o =>
    dsimp only
    cases o.buffer.offsetOf? a.word with
    | none => rfl
    | some n => cases o.shift.apply a <;> rfl

theorem asking_bufferOffset (a : Addr .buffer) : Asking s (bufferOffset a) := by
  rintro r rfl
  unfold bufferOffset
  rw [wp_bind]
  refine (asking_toRequested a).use rfl (fun place r' hr' => ?_) fun _ _ h => h
  simp only [wp_bind, wp_session]
  split <;> exact hr'

theorem asking_outputAddr (source : Word) : Asking s (outputAddr source) := by
  rintro r rfl
  unfold outputAddr
  rw [wp_bind, wp_session, wp_ofViolation]
  split <;> rfl

theorem asking_chainOffset (w : Word) : Asking s (chainOffset w) := by
  rintro r rfl
  unfold chainOffset
  simp only [wp_bind, wp_session]
  split
  · rfl
  · split
    · exact asking_bufferOffset _ r rfl
    · rw [wp_bind]
      refine (asking_outputAddr w).use rfl (fun a r' hr' => ?_) fun _ _ h => h
      exact hr' ▸ asking_bufferOffset a r' rfl

theorem asking_sourceAddr (target : Addr .buffer) : Asking s (sourceAddr target) := by
  rintro r rfl
  unfold sourceAddr
  rw [wp_bind, wp_session]
  split <;> rfl

theorem asking_logMap : Asking s logMap := by
  rintro r rfl
  unfold logMap
  rw [wp_bind, wp_session]
  split
  · exact Triple.forM (I := fun _ => (· = r.session)) (fun entry _ => Keeps.tell (.map entry)) _ r rfl
  · rfl

theorem asking_printStats : Asking s printStats := by
  rintro r rfl
  unfold printStats
  rw [wp_bind, wp_session]
  exact Triple.forM (I := fun _ => (· = r.session)) (fun event _ => Keeps.tell event) _ r rfl

theorem asking_ofFailure (x : Except Failure α) : Asking s (ofFailure x) := by
  rintro r rfl
  rw [wp_ofFailure]
  cases x <;> rfl

theorem Asking.forget {m : SessionM α} (h : Asking s m) : Asking s (m >>= fun _ => pure ()) :=
  h.bind fun _ _ h => h

/-- Questions change nothing. -/
theorem asking_query : ∀ q : Query, Asking s q.run
  | .outputAddr source => (asking_outputAddr source).forget
  | .sourceAddr target => (asking_sourceAddr target).forget
  | .toRequested a => (asking_toRequested a).forget
  | .bufferOffset a => (asking_bufferOffset a).forget
  | .chainOffset w => (asking_chainOffset w).forget
  | .logMap => asking_logMap
  | .printStats => asking_printStats

end Rest

/-- A step that belongs to the stage `t` leads to the next one, or the session stays at its
    stage. -/
theorem passing_step {m : Milestone} {t : Stage} {name : String} {f : Unit → SessionM Unit}
    (h : s.Sound) (hopen : t ≠ .relocated)
    (hstep : s.stage = t → Triple (· = s) (requireStage t name >>= f) (fun _ => Passes m s)
      (fun _ s' => s'.Sound ∧ s'.stage = t)) : Passing m s (requireStage t name >>= f) := by
  by_cases hstage : s.stage = t
  · refine (hstep hstage).conseq (fun _ hs => hs) (fun _ _ hs => hs) fun _ s' hs => ?_
    exact ⟨hs.1, hs.2.trans hstage.symm, fun hrelocated => absurd (hstage.symm.trans hrelocated) hopen⟩
  · refine (triple_outOfOrder hstage).conseq (fun _ hs => hs) (fun _ _ hs => hs) fun _ s' hs => ?_
    rw [hs.1]
    exact .refl h

theorem passing_gather (h : s.Sound) (roots : List Word) : Passing .gather s (gather roots) := by
  refine passing_step h nofun fun hnew => ?_
  have hstage := triple_gather (s := s) (P := fun s' => s'.stage = .new) (E := fun _ s' => s'.stage = .new)
    roots (fun hother => absurd hnew hother) ?_ ?_
  · refine ((keeps_gather roots).and hstage).conseq (fun _ hs => ⟨hs ▸ h, hs⟩) ?_ fun _ _ hs => hs
    rintro _ s' ⟨hsound, -, s₁, -, rfl⟩
    exact ⟨hsound, congrArg Stage.rank hnew, rfl, nofun⟩
  · rintro - s' ⟨_, _, _, rfl⟩
    exact ⟨hnew, fun _ => hnew⟩
  · intro _ s₁ root _
    refine Host.keeps_visit (P := fun s' => s'.stage = .new) (fun e r hr => ?_) root
    refine (triple_registerEdge r.session e).use rfl ?_ ?_
    · rintro v r' ⟨s₂, hnote, henter⟩
      rw [henter.frame, hnote.frame]
      exact hr
    · rintro f r' (⟨hsame, -⟩ | ⟨hnote, -⟩)
      · rw [hsame]
        exact hr
      · rw [hnote.frame]
        exact hr

theorem passing_reserveBuffer (h : s.Sound) (a : Advisories) :
    Passing .reserveBuffer s (reserveBuffer a) := by
  refine ((keeps_reserveBuffer a).and (triple_reserveBuffer h.settings a)).conseq
    (fun _ hs => ⟨hs ▸ h, hs⟩) ?_ ?_
  · rintro _ s' ⟨hsound, hstage, o, -, rfl⟩
    exact ⟨hsound, congrArg Stage.rank hstage, rfl, nofun⟩
  · rintro _ s' ⟨-, rfl⟩
    exact .refl h

theorem passing_copyMutable (h : s.Sound) (tables : TableProvider) :
    Passing .copyMutable s (copyMutable tables) := by
  refine passing_step h nofun fun hstage => ?_
  refine triple_copyMutable_stage.conseq (fun _ hs => ⟨hs ▸ h, hs ▸ hstage⟩) ?_ fun _ _ hs => hs
  rintro _ s' ⟨hsound, hstage'⟩
  exact ⟨hsound, congrArg Stage.rank hstage, congrArg Stage.rank hstage', by rw [hstage']; nofun⟩

theorem passing_copyReadOnly (h : s.Sound) (tables : TableProvider) :
    Passing .copyReadOnly s (copyReadOnly tables) := by
  refine passing_step h nofun fun hstage => ?_
  refine triple_copyReadOnly_stage.conseq (fun _ hs => ⟨hs ▸ h, hs ▸ hstage⟩) ?_ fun _ _ hs => hs
  rintro _ s' ⟨hsound, hstage'⟩
  exact ⟨hsound, congrArg Stage.rank hstage, congrArg Stage.rank hstage', by rw [hstage']; nofun⟩

theorem passing_wire (h : s.Sound) : Passing .wire s wire := by
  refine passing_step h nofun fun hstage => ?_
  refine (triple_wire_stage (C := fun _ => True) fun _ _ _ _ _ _ _ => trivial).conseq
    (fun _ hs => ⟨hs ▸ h, hs ▸ hstage, trivial⟩) ?_ fun _ _ hs => ⟨hs.1, hs.2.1⟩
  rintro _ s' ⟨_, -, rfl, hsound⟩
  exact ⟨hsound, congrArg Stage.rank hstage, rfl, nofun⟩

/-- The last step leaves an archive of `s`. -/
theorem passing_relocate (h : s.Sound) : Passing .relocate s relocate := by
  refine passing_step h nofun fun hstage => ?_
  obtain ⟨o, ho⟩ := Sound.output_of_rank h (by rw [hstage]; decide)
  refine (keeps_relocate.and (triple_relocate_halted h ho hstage)).conseq (fun _ hs => ⟨hs ▸ h, hs⟩) ?_ ?_
  · rintro _ s' ⟨hsound, o', hland, rfl⟩
    obtain ⟨a, ha, -⟩ := finished_of_landed h hland
    exact ⟨hsound, congrArg Stage.rank hstage, rfl, fun _ => by rw [ha]; rfl⟩
  · rintro _ s' ⟨hsound, _, _, -, -, rfl⟩
    exact ⟨hsound, hstage⟩

end SessionM

namespace Chronicle

/-- The steps that succeeded are those up to the stage of the session, and once all did there is an
    archive; it is `kept?`, if one was kept. -/
structure Holds (kept? : Option Archive) (c : Chronicle) : Prop where
  sound : c.run.session.Sound
  passed : c.passed = Milestone.all.take c.run.session.stage.rank
  archive : c.run.session.stage = .relocated → c.run.session.archive?.isSome = true
  kept : ∀ a, kept? = some a → c.run.session.archive? = some a

variable {kept? : Option Archive} {c : Chronicle}

theorem archive?_eq_none {s : Session} (h : s.stage ≠ .relocated) : s.archive? = none := if_neg h

theorem Holds.rests (h : c.Holds kept?) {r : Run} (hr : Rests c.run.session r.session) :
    Holds kept? { c with run := r } where
  sound := hr.sound
  passed := h.passed.trans (by rw [← hr.stage])
  archive hstage := by
    have hbefore := hr.stage.symm.trans hstage
    exact (hr.archive hbefore).symm ▸ h.archive hbefore
  kept a ha := by
    have hbefore : c.run.session.stage = .relocated := by
      by_contra hne
      exact nomatch (archive?_eq_none hne).symm.trans (h.kept a ha)
    exact (hr.archive hbefore).trans (h.kept a ha)

theorem Holds.passes (h : c.Holds kept?) {m : Milestone} {r : Run} (hr : Passes m c.run.session r.session) :
    Holds kept? ⟨r, c.passed ++ [m]⟩ where
  sound := hr.sound
  passed := by
    change c.passed ++ [m] = _
    rw [h.passed, hr.before, hr.after, Milestone.take_succ]
  archive := hr.archive
  kept a ha := by
    have hne : c.run.session.stage ≠ .relocated := fun hstage => by
      have hrank := hr.before
      rw [hstage] at hrank
      cases m <;> cases hrank
    exact nomatch (archive?_eq_none hne).symm.trans (h.kept a ha)

end Chronicle

namespace ChronicleM

open Chronicle

variable {α β : Type} {I : Chronicle → Prop} {kept? : Option Archive}

/-- What `I` says before `m` holds afterwards, whether or not `m` fails. -/
def Keeps (I : Chronicle → Prop) (m : ChronicleM α) : Prop := ∀ c, I c → I (m.run.run c).2

theorem Keeps.pure (a : α) : Keeps I (Pure.pure a : ChronicleM α) := fun _ h => h

theorem Keeps.bind {m : ChronicleM α} {f : α → ChronicleM β} (hm : Keeps I m)
    (hf : ∀ a, Keeps I (f a)) : Keeps I (m >>= f) := by
  intro c hc
  have hmiddle := hm c hc
  rw [ExceptT.run_bind, StateT.run_bind]
  revert hmiddle
  rcases m.run.run c with ⟨_ | a, c₁⟩
  · exact id
  · exact hf a c₁

theorem Keeps.attempt {m : ChronicleM Unit} (hm : Keeps I m) : Keeps I (attempt m) :=
  fun c hc => hm c hc

theorem keeps_unnoted {m : SessionM α} (hm : ∀ s, s.Sound → Resting s m) :
    Keeps (Holds kept?) (unnoted m) :=
  fun c hc => hc.rests ((hm _ hc.sound).always (r := c.run) rfl)

theorem keeps_noted {m : Milestone} {step : SessionM Unit} (hstep : ∀ s, s.Sound → Passing m s step) :
    Keeps (Holds kept?) (noted m step) := by
  intro c hc
  have hrun := hstep _ hc.sound c.run rfl
  have hunnoted : (unnoted step).run.run c =
    ((step.run.run c.run).1, { c with run := (step.run.run c.run).2 }) := rfl
  unfold noted
  rw [ExceptT.run_bind, StateT.run_bind, hunnoted]
  unfold wp on at hrun
  revert hrun
  rcases step.run.run c.run with ⟨_ | _, r⟩
  · exact hc.rests
  · exact hc.passes

theorem keeps_build (roots : List Word) (advisories : Advisories) (templates : List DispatchTemplate)
    {freeze : ChronicleM Unit} (hfreeze : Keeps (Holds kept?) freeze) :
    Keeps (Holds kept?) (build roots advisories templates freeze) := by
  unfold build
  refine .bind (keeps_noted fun _ hs => passing_gather hs _) fun _ => ?_
  refine .bind (keeps_noted fun _ hs => passing_reserveBuffer hs _) fun _ => ?_
  refine .bind (keeps_unnoted fun _ hs => resting_prepareTables hs _) fun _ => ?_
  refine .bind (keeps_noted fun _ hs => passing_copyMutable hs _) fun _ => ?_
  refine .bind (keeps_noted fun _ hs => passing_copyReadOnly hs _) fun _ => ?_
  refine .bind (keeps_noted fun _ hs => passing_wire hs) fun _ => ?_
  exact .bind hfreeze fun _ => keeps_noted fun _ hs => passing_relocate hs

end ChronicleM

namespace Call

variable {s : Session} {c : Call}

/-- A call `c` that is no step leaves `s` at its stage. -/
theorem resting_run (hs : s.Sound) : ∀ c : Call, c.milestone? = none → Resting s c.run
  | allocateOther bytes, _ => (resting_allocateOther hs bytes).bind fun _ _ hs' => .pure hs' ()
  | writeWord _ w, _ => resting_writeWord hs w
  | verifyEstimate estimate label, _ => (touching_verifyEstimate estimate label).resting hs asking_closed
  | recordReplaced former substitute, _ => resting_recordReplaced hs former substitute
  | markPointer slot, _ => (slotting_markPointer slot).touching.resting hs asking_closed
  | setPointer slot value, _ => (slotting_setPointer slot value).touching.resting hs asking_closed
  | clearPointer slot, _ => (slotting_clearPointer slot).touching.resting hs asking_closed
  | writePointer _ source?, _ => resting_writePointer hs source?

theorem passing_run (hs : s.Sound) : ∀ (c : Call) (m : Milestone), c.milestone? = some m → Passing m s c.run
  | gather roots, _, rfl => passing_gather hs roots
  | reserveBuffer a, _, rfl => passing_reserveBuffer hs a
  | copyMutable tables, _, rfl => passing_copyMutable hs tables
  | copyReadOnly tables, _, rfl => passing_copyReadOnly hs tables
  | wire, _, rfl => passing_wire hs
  | relocate, _, rfl => passing_relocate hs

/-- A call `c` leaves `s` at its stage, or is the step `m` to the next one. -/
theorem after_cases (hs : s.Sound) (c : Call) :
    Rests s (c.after s) ∨ ∃ m, c.milestone? = some m ∧ Passes m s (c.after s) := by
  cases hm : c.milestone? with
  | none =>
    obtain ⟨_, -, hrests⟩ | ⟨_, -, hrests⟩ := (c.resting_run hs hm).perform rfl <;> exact .inl hrests
  | some m =>
    obtain ⟨_, -, hpasses⟩ | ⟨_, -, hrests⟩ := (c.passing_run hs m hm).perform rfl
    · exact .inr ⟨m, rfl, hpasses⟩
    · exact .inl hrests

/-- No call `c` but the last step finishes a session. -/
theorem rests_after (hs : s.Sound) (hc : c.milestone? ≠ some .relocate)
    (hstage : (c.after s).stage = .relocated) : Rests s (c.after s) := by
  obtain hrests | ⟨m, hm, hpasses⟩ := c.after_cases hs
  · exact hrests
  · have hrank := hpasses.after
    rw [hstage] at hrank
    cases m with
    | relocate => exact absurd hm hc
    | _ => cases hrank

/-- A call `c` keeps the chronicle: the steps that succeeded are those up to the stage, and the
    archive is `kept?`. -/
theorem keeps_call {kept? : Option Archive} (c : Call) :
    ChronicleM.Keeps (Chronicle.Holds kept?) (Operation.call c).run := by
  unfold Operation.run
  cases hm : c.milestone? with
  | none => exact keeps_unnoted fun _ hs => c.resting_run hs hm
  | some m => exact keeps_noted fun _ hs => c.passing_run hs m hm

end Call

namespace ChronicleM

open Chronicle

variable {kept? : Option Archive}

mutual

theorem keeps_run : ∀ operation : Operation, Keeps (Holds kept?) operation.run
  | .call c => c.keeps_call
  | .query q => keeps_unnoted fun _ hs => (asking_query q).resting hs
  | .build roots advisories templates freeze verdict => by
    unfold Operation.run
    refine keeps_build roots advisories templates (.bind (keeps_runAll freeze) fun _ => ?_)
    exact keeps_unnoted fun _ hs => (asking_ofFailure verdict).resting hs

theorem keeps_runAll : ∀ operations : List Operation, Keeps (Holds kept?) (Operation.runAll operations)
  | [] => .pure ()
  | operation :: rest => by
    unfold Operation.runAll
    exact .bind (.attempt (keeps_run operation)) fun _ => keeps_runAll rest

end

end ChronicleM

namespace Session

open Chronicle

variable {s : Session}

theorem runAll_append (operations later : List Operation) (c : Chronicle) :
    ((Operation.runAll (operations ++ later)).run.run c).2 =
      ((Operation.runAll later).run.run ((Operation.runAll operations).run.run c).2).2 := by
  induction operations generalizing c with
  | nil => rfl
  | cons operation rest ih =>
    rw [List.cons_append, Operation.runAll, Operation.runAll]
    exact ih _

theorem holds_chronicle (h : s.Sound) (hnew : s.stage = .new) (operations : List Operation) :
    Holds none (s.chronicle operations) := by
  refine keeps_runAll operations ⟨⟨s, #[]⟩, []⟩ ⟨h, ?_, fun hstage => ?_, nofun⟩
  · change [] = Milestone.all.take s.stage.rank
    rw [hnew]
    rfl
  · exact nomatch hnew.symm.trans hstage

/-- The order of the steps, and that archives are final. Whatever `operations` are done with a
    session, the steps that succeeded are the first ones of all, each once and in their order. There
    is an archive if and only if the last step succeeded, and whatever is done `later` it stays the
    same. -/
theorem chronicle_final {host : Host} {reservations : Reservations} {settings : Settings}
    {mapped? : Option (AddrRange .mapped)} {alive : Bool}
    (h : begin host reservations settings mapped? alive = .ok s) (operations later : List Operation) :
    let c := s.chronicle operations
    c.passed <+: Milestone.all ∧
    (c.run.session.archive?.isSome = true ↔ .relocate ∈ c.passed) ∧
    (.relocate ∈ c.passed →
      (s.chronicle (operations ++ later)).run.session.archive? = c.run.session.archive?) := by
  intro c
  have hnew : s.stage = .new := by
    obtain ⟨-, _, -, rfl⟩ := begin_eq_ok h
    rfl
  have hc : Holds none c := holds_chronicle (sound_begin h) hnew operations
  have hstage : .relocate ∈ c.passed ↔ c.run.session.stage = .relocated := by
    rw [hc.passed]
    exact Milestone.relocate_mem_take _
  refine ⟨?_, ?_, fun hlast => ?_⟩
  · rw [hc.passed]
    exact List.take_prefix ..
  · rw [hstage]
    refine ⟨fun hsome => ?_, hc.archive⟩
    by_contra hne
    rw [archive?_eq_none hne] at hsome
    cases hsome
  · obtain ⟨a, ha⟩ := Option.isSome_iff_exists.1 (hc.archive (hstage.1 hlast))
    -- from here on the invariant also says which archive it is
    have hkept : Holds (some a) c := ⟨hc.sound, hc.passed, hc.archive, fun _ ha' => by
      cases ha'
      exact ha⟩
    rw [ha, chronicle, runAll_append]
    exact (keeps_runAll later c hkept).kept a rfl

/-- A build that finishes its archive while it freezes the copies, and calls that are then refused. -/
theorem chronicle_final_pair :
    let s := fresh pairHeap.toHost ⟨⟨0x20000⟩, 0x1000, room_fits⟩ ⟨0x8000, 8, 0, false⟩ none
    let operations : List Operation :=
      [.query .printStats, .build [0x100000000000] ⟨0, 0, 0⟩ [] [.call .wire, .call .relocate] (.ok ())]
    let later : List Operation :=
      [.call .relocate, .call (.setPointer ⟨0x20010⟩ ⟨0x20020⟩), .call (.gather [0x100000000000])]
    begin s.host s.reservations s.settings none false = .ok s ∧
    .relocate ∈ (s.chronicle operations).passed ∧
    (s.chronicle (operations ++ later)).run.session.archive? =
      (s.chronicle operations).run.session.archive? := by
  intro s operations later
  have hbegin : begin s.host s.reservations s.settings none false = .ok s :=
    begin_fresh (show Settings.validate ⟨0x8000, 8, 0, false⟩ = .ok () from rfl)
  have hlast : .relocate ∈ (s.chronicle operations).passed := by decide +kernel
  exact ⟨hbegin, hlast, (chronicle_final hbegin operations later).2.2 hlast⟩

end Session

end SnapshotArchive
