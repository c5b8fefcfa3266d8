import Mathlib.Tactic.Common
import SnapshotArchive.Session.Basic

/-!
A program logic for session operations. The weakest precondition of an operation has one equation for
each primitive, by which the effect of straight-line code is computed. Triples forget what was told and
speak of sessions alone; loops are proved through them.
-/

namespace SnapshotArchive

namespace SessionM

variable {α β : Type}

/-- Runs `m` after all that was told before in `r`. -/
def on (m : SessionM α) (r : Run) : Except Failure α × Run := m.run.run r

/-- From `r` the operation `m` answers so that `Q` holds, or fails so that `E` holds. -/
def wp (m : SessionM α) (Q : α → Run → Prop) (E : Failure → Run → Prop) (r : Run) : Prop :=
  match m.on r with
  | (.ok a, r') => Q a r'
  | (.error f, r') => E f r'

variable {Q : α → Run → Prop} {E : Failure → Run → Prop} {r : Run}

theorem on_bind (m : SessionM α) (f : α → SessionM β) (r : Run) :
    (m >>= f).on r =
      match m.on r with
      | (.ok a, r') => (f a).on r'
      | (.error e, r') => (.error e, r') := by
  unfold on
  rw [ExceptT.run_bind, StateT.run_bind]
  cases m.run.run r with
  | mk x r' => cases x <;> rfl

@[simp] theorem wp_bind (m : SessionM α) (f : α → SessionM β) (Q : β → Run → Prop) :
    (m >>= f).wp Q E r = m.wp (fun a r' => (f a).wp Q E r') E r := by
  unfold wp
  rw [on_bind]
  rcases m.on r with ⟨_ | _, _⟩ <;> rfl

@[simp] theorem wp_pure (a : α) : (pure a : SessionM α).wp Q E r = Q a r := rfl

@[simp] theorem wp_throw (f : Failure) : (throw f : SessionM α).wp Q E r = E f r := rfl

@[simp] theorem wp_violate (v : Violation) : (violate v : SessionM α).wp Q E r = E v r := rfl

@[simp] theorem wp_session (Q : Session → Run → Prop) : session.wp Q E r = Q r.session r := rfl

@[simp] theorem wp_update (f : Session → Session) (Q : Unit → Run → Prop) :
    (update f).wp Q E r = Q () { r with session := f r.session } := rfl

@[simp] theorem wp_tell (e : Event) (Q : Unit → Run → Prop) :
    (tell e).wp Q E r = Q () { r with events := r.events.push e } := rfl

@[simp] theorem wp_enter (t : Stage) (Q : Unit → Run → Prop) :
    (enter t).wp Q E r = Q () { r with session := { r.session with stage := t } } := rfl

@[simp] theorem wp_setOutput (o : Output) (Q : Unit → Run → Prop) :
    (setOutput o).wp Q E r = Q () { r with session := { r.session with output? := some o } } := rfl

@[simp] theorem wp_changeOutput (f : Output → Output) (Q : Unit → Run → Prop) :
    (changeOutput f).wp Q E r =
      Q () { r with session := { r.session with output? := r.session.output?.map f } } := rfl

theorem wp_ofViolation (x : Except Violation α) :
    (ofViolation x).wp Q E r = match x with | .ok a => Q a r | .error v => E v r := by
  cases x <;> rfl

theorem wp_ofBuild (x : Except BuildError α) :
    (ofBuild x).wp Q E r = match x with | .ok a => Q a r | .error e => E e r := by
  cases x <;> rfl

theorem wp_ofFailure (x : Except Failure α) :
    (ofFailure x).wp Q E r = match x with | .ok a => Q a r | .error f => E f r := by
  cases x <;> rfl

theorem wp_requireStage (t : Stage) (step : String) (Q : Unit → Run → Prop) :
    (requireStage t step).wp Q E r =
      if r.session.stage = t then Q () r else E (Violation.outOfOrder step) r := by
  simp only [requireStage, wp_bind, wp_session]
  by_cases h : r.session.stage = t
  · simp [h]
  · simp [h]

theorem wp_output (step : String) (Q : Output → Run → Prop) :
    (output step).wp Q E r =
      match r.session.output? with
      | some o => Q o r
      | none => E (Violation.outOfOrder step) r := by
  simp only [output, wp_bind, wp_session]
  cases r.session.output? <;> rfl

theorem wp_openOutput (step : String) (Q : Output → Run → Prop) :
    (openOutput step).wp Q E r =
      match r.session.output? with
      | some o =>
        if r.session.stage.before .relocated = true then Q o r
        else E (Violation.outOfOrder step) r
      | none => E (Violation.outOfOrder step) r := by
  simp only [openOutput, wp_bind, wp_session]
  cases r.session.output? with
  | none => rfl
  | some o => by_cases h : r.session.stage.before .relocated = true <;> simp [h]

/-- A step `m` that cannot fail, and that answers what it answers. -/
theorem wp_lift (m : StateM Run α) :
    (liftM m : SessionM α).wp Q E r = Q (m.run r).1 (m.run r).2 := rfl

theorem wp_mono {Q' : α → Run → Prop} {E' : Failure → Run → Prop} {m : SessionM α}
    (h : m.wp Q E r) (hQ : ∀ a r', Q a r' → Q' a r') (hE : ∀ f r', E f r' → E' f r') :
    m.wp Q' E' r := by
  unfold wp at *
  revert h
  rcases m.on r with ⟨_ | _, _⟩
  · exact hE _ _
  · exact hQ _ _

theorem on_eq_ok {m : SessionM α} {a : α} {r' : Run}
    (h : m.wp (fun x s => x = a ∧ s = r') (fun _ _ => False) r) : m.on r = (.ok a, r') := by
  unfold wp at h
  revert h
  rcases m.on r with ⟨_ | _, _⟩
  · exact False.elim
  · rintro ⟨rfl, rfl⟩
    rfl

theorem on_eq_error {m : SessionM α} {f : Failure} {r' : Run}
    (h : m.wp (fun _ _ => False) (fun x s => x = f ∧ s = r') r) : m.on r = (.error f, r') := by
  unfold wp at h
  revert h
  rcases m.on r with ⟨_ | _, _⟩
  · rintro ⟨rfl, rfl⟩
    rfl
  · exact False.elim

/-- From a session that satisfies `P`, the operation answers with `Q`, or fails with `E`. -/
def Triple (P : Session → Prop) (m : SessionM α) (Q : α → Session → Prop)
    (E : Failure → Session → Prop) : Prop :=
  ∀ r : Run, P r.session → m.wp (fun a r' => Q a r'.session) (fun f r' => E f r'.session) r

/-- The operation leaves `P` as it was, whether it answers or fails. -/
def Keeps (P : Session → Prop) (m : SessionM α) : Prop := Triple P m (fun _ => P) (fun _ => P)

namespace Triple

variable {P P' : Session → Prop} {m : SessionM α} {Q : α → Session → Prop}
  {E : Failure → Session → Prop}

/-- A triple of `m` used within a longer operation. -/
theorem use (h : Triple P m Q E) {Q' : α → Run → Prop} {E' : Failure → Run → Prop} {r : Run}
    (hP : P r.session) (hQ : ∀ a r', Q a r'.session → Q' a r')
    (hE : ∀ f r', E f r'.session → E' f r') : m.wp Q' E' r :=
  wp_mono (h r hP) hQ hE

theorem conseq {Q' : α → Session → Prop} {E' : Failure → Session → Prop} (h : Triple P m Q E)
    (hP : ∀ s, P' s → P s) (hQ : ∀ a s, Q a s → Q' a s) (hE : ∀ f s, E f s → E' f s) :
    Triple P' m Q' E' :=
  fun _ hr => h.use (hP _ hr) (fun _ _ => hQ _ _) fun _ _ => hE _ _

theorem bind {R : β → Session → Prop} {f : α → SessionM β} (hm : Triple P m Q E)
    (hf : ∀ a, Triple (Q a) (f a) R E) : Triple P (m >>= f) R E := by
  intro r hr
  rw [wp_bind]
  exact hm.use hr (fun a r' h => hf a r' h) fun _ _ h => h

/-- A loop over `xs`: what `I` says of the elements that are left holds of none in the end. -/
theorem forM {f : β → SessionM Unit} {I : List β → Session → Prop}
    (h : ∀ b rest, Triple (I (b :: rest)) (f b) (fun _ => I rest) E) :
    ∀ xs : List β, Triple (I xs) (xs.forM f) (fun _ => I []) E
  | [] => fun _ hr => hr
  | b :: rest => by
    change Triple _ (f b >>= fun _ => rest.forM f) _ _
    exact (h b rest).bind fun _ => forM h rest

theorem and {Q' : α → Session → Prop} {E' : Failure → Session → Prop} (h : Triple P m Q E)
    (h' : Triple P' m Q' E') :
    Triple (fun s => P s ∧ P' s) m (fun a s => Q a s ∧ Q' a s) (fun f s => E f s ∧ E' f s) := by
  intro r hr
  have left := h r hr.1
  have right := h' r hr.2
  unfold wp at *
  revert left right
  rcases m.on r with ⟨_ | _, _⟩ <;> exact And.intro

end Triple

/-- A step that is out of order, at another stage than `t`, fails at once. -/
theorem triple_outOfOrder {s : Session} {t : Stage} {step : String} {m : Unit → SessionM α}
    {Q : α → Session → Prop} (h : s.stage ≠ t) :
    Triple (· = s) (requireStage t step >>= m) Q
      (fun f s' => s' = s ∧ f = .error (.invariant (.outOfOrder step))) := by
  rintro r rfl
  rw [wp_bind, wp_requireStage, if_neg h]
  exact ⟨rfl, rfl⟩

/-- A step is made at its stage `t`; elsewhere it fails at once and changes nothing. -/
theorem Triple.ofStage {P : Session → Prop} {t : Stage} {step : String} {m : Unit → SessionM α}
    {Q : α → Session → Prop} {E : Failure → Session → Prop}
    (h : Triple (fun s => P s ∧ s.stage = t) (requireStage t step >>= m) Q E)
    (hout : ∀ s, P s → s.stage ≠ t → E (.error (.invariant (.outOfOrder step))) s) :
    Triple P (requireStage t step >>= m) Q E := by
  intro r hr
  by_cases hstage : r.session.stage = t
  · exact h r ⟨hr, hstage⟩
  · refine (triple_outOfOrder hstage).use rfl (fun _ _ h' => h') fun f r' h' => ?_
    rw [h'.1, h'.2]
    exact hout _ hr hstage

namespace Keeps

variable {P : Session → Prop}

/-- A step keeps what it keeps at its stage `t`. -/
theorem ofStage {t : Stage} {step : String} {m : Unit → SessionM α}
    (h : Triple (fun s => P s ∧ s.stage = t) (requireStage t step >>= m) (fun _ => P) fun _ => P) :
    Keeps P (requireStage t step >>= m) := Triple.ofStage h fun _ hs _ => hs

theorem bind {m : SessionM α} {f : α → SessionM β} (hm : Keeps P m) (hf : ∀ a, Keeps P (f a)) :
    Keeps P (m >>= f) := Triple.bind hm hf

theorem forM {f : β → SessionM Unit} (h : ∀ b, Keeps P (f b)) (xs : List β) :
    Keeps P (xs.forM f) := Triple.forM (I := fun _ => P) (fun b _ => h b) xs

theorem tell (e : Event) : Keeps P (tell e) := fun _ h => h

end Keeps

/-- What an operation `m` that is performed on `s` answers and leaves. -/
theorem Triple.perform {P : Session → Prop} {m : SessionM α} {Q : α → Session → Prop}
    {E : Failure → Session → Prop} (h : Triple P m Q E) {s : Session} (hs : P s) :
    (∃ a, (m.perform s).1 = .ok a ∧ Q a (m.perform s).2.session) ∨
      ∃ f, (m.perform s).1 = .error f ∧ E f (m.perform s).2.session := by
  have hrun := h ⟨s, #[]⟩ hs
  change match m.perform s with | (.ok a, r') => Q a r'.session | (.error f, r') => E f r'.session
    at hrun
  revert hrun
  rcases m.perform s with ⟨f | a, r⟩
  · exact fun hE => Or.inr ⟨f, rfl, hE⟩
  · exact fun hQ => Or.inl ⟨a, rfl, hQ⟩

/-- What an operation `m` that answered `a` leaves. -/
theorem Triple.on_eq_ok {P : Session → Prop} {m : SessionM α} {Q : α → Session → Prop}
    {E : Failure → Session → Prop} (h : Triple P m Q E) {r : Run} (hr : P r.session) {a : α}
    (hok : (m.on r).1 = .ok a) : Q a (m.on r).2.session := by
  have hrun := h r hr
  unfold wp at hrun
  revert hrun hok
  rcases m.on r with ⟨_ | _, _⟩
  · exact fun hok _ => nomatch hok
  · rintro hok hQ
    cases hok
    exact hQ

/-- A step that answers was made at its stage `t`. -/
theorem stage_of_perform {s : Session} {t : Stage} {step : String} {m : Unit → SessionM α} {a : α}
    (hok : ((requireStage t step >>= m).perform s).1 = .ok a) : s.stage = t := by
  by_contra hstage
  obtain ⟨_, -, hfalse⟩ | ⟨_, herror, -⟩ := (triple_outOfOrder (Q := fun _ _ => False) hstage).perform rfl
  · exact hfalse
  · exact nomatch hok.symm.trans herror

/-- If `m` and then `f` answers, `m` does. -/
theorem perform_bind_eq_ok {m : SessionM α} {f : α → SessionM β} {s : Session} {b : β}
    (hok : ((m >>= f).perform s).1 = .ok b) :
    ∃ a, (m.perform s).1 = .ok a ∧ (m >>= f).perform s = (f a).on (m.perform s).2 := by
  have hbind : (m >>= f).perform s = match m.perform s with
    | (.ok a, r') => (f a).on r'
    | (.error e, r') => (.error e, r') := on_bind m f ⟨s, #[]⟩
  rw [hbind] at hok ⊢
  revert hok
  rcases m.perform s with ⟨_ | a, r⟩
  · exact fun hok => nomatch hok
  · exact fun _ => ⟨a, rfl, rfl⟩

/-- What `I` says afterwards in any case. -/
theorem Triple.always {P I : Session → Prop} {m : SessionM α}
    (h : Triple P m (fun _ => I) fun _ => I) {r : Run} (hr : P r.session) : I (m.run.run r).2.session := by
  have hrun := h r hr
  unfold wp on at hrun
  revert hrun
  rcases m.run.run r with ⟨_ | _, _⟩ <;> exact id

end SessionM

end SnapshotArchive
