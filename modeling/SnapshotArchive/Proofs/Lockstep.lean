import Mathlib.Tactic.Common
import SnapshotArchive.Proofs.Traversal

/-!
Two operations run side by side. A relation of what is seen of the two states is carried from step to
step: both sides answer, or both fail. Where that is not `sure`, one side may fail alone, and nothing is
said then.
-/

namespace SnapshotArchive

/-- Both answer, and `A` relates the answers, or both failed; where that is not `sure`, one may fail
    alone. -/
def Agree {ε ε' α β : Type} (sure : Prop) (A : α → β → Prop) : Except ε α → Except ε' β → Prop
  | .ok a, .ok b => A a b
  | .error _, .error _ => True
  | .ok _, .error _ => ¬sure
  | .error _, .ok _ => ¬sure

theorem Agree.refl {ε α : Type} (sure : Prop) (x : Except ε α) : Agree sure Eq x x := by
  rcases x with _ | _
  · trivial
  · exact rfl

theorem Agree.imp {ε ε' α β : Type} {sure : Prop} {A B : α → β → Prop} {x : Except ε α} {y : Except ε' β}
    (h : Agree sure A x y) (hAB : ∀ a b, A a b → B a b) : Agree sure B x y := by
  rcases x with _ | a <;> rcases y with _ | b
  · exact h
  · exact h
  · exact h
  · exact hAB a b h

theorem Agree.exists_ok {ε ε' α β : Type} {sure : Prop} {A : α → β → Prop} {a : α} {y : Except ε' β}
    (h : Agree sure A (.ok a : Except ε α) y) (hsure : sure) : ∃ b, y = .ok b ∧ A a b := by
  rcases y with _ | b
  · exact absurd hsure h
  · exact ⟨b, rfl, h⟩

variable {σ τ S T α β γ δ : Type}

/-- From states seen to be related by `P` both `m` and `m'` answer so that `Q` holds, or both
    fail. -/
def Lockstep (sure : Prop) (f : σ → S) (g : τ → T) (P : S → T → Prop) (m : ExceptT Failure (StateM σ) α)
    (m' : ExceptT Failure (StateM τ) β) (Q : α → β → S → T → Prop) : Prop :=
  ∀ s t, P (f s) (g t) → Agree sure (fun a b => Q a b (f (m.run.run s).2) (g (m'.run.run t).2))
    (m.run.run s).1 (m'.run.run t).1

namespace Lockstep

variable {sure : Prop} {f : σ → S} {g : τ → T} {P P' : S → T → Prop} {m : ExceptT Failure (StateM σ) α}
  {m' : ExceptT Failure (StateM τ) β} {Q : α → β → S → T → Prop}

theorem conseq {Q' : α → β → S → T → Prop} (h : Lockstep sure f g P m m' Q)
    (hP : ∀ s t, P' s t → P s t) (hQ : ∀ a b s t, Q a b s t → Q' a b s t) :
    Lockstep sure f g P' m m' Q' := by
  intro s t hst
  exact (h s t (hP _ _ hst)).imp fun a b => hQ a b _ _

theorem run_bind (m : ExceptT Failure (StateM σ) α) (k : α → ExceptT Failure (StateM σ) γ) (s : σ) :
    (m >>= k).run.run s =
      match m.run.run s with
      | (.ok a, s') => (k a).run.run s'
      | (.error e, s') => (.error e, s') := by
  rw [ExceptT.run_bind, StateT.run_bind]
  rcases m.run.run s with ⟨_ | _, _⟩ <;> rfl

theorem bind {R : γ → δ → S → T → Prop} {k : α → ExceptT Failure (StateM σ) γ}
    {k' : β → ExceptT Failure (StateM τ) δ} (hm : Lockstep sure f g P m m' Q)
    (hk : ∀ a b, Lockstep sure f g (Q a b) (k a) (k' b) R) : Lockstep sure f g P (m >>= k) (m' >>= k') R := by
  intro s t hst
  have hrun := hm s t hst
  rw [run_bind, run_bind]
  revert hrun
  rcases m.run.run s with ⟨_ | a, s'⟩ <;> rcases m'.run.run t with ⟨_ | b, t'⟩ <;> intro hrun
  · trivial
  -- an operation that goes on alone may still fail
  · dsimp only
    rcases (k' b).run.run t' with ⟨_ | _, _⟩
    · trivial
    · exact hrun
  · dsimp only
    rcases (k a).run.run s' with ⟨_ | _, _⟩
    · trivial
    · exact hrun
  · exact hk a b s' t' hrun

theorem pure {a : α} {b : β} (h : ∀ s t, P s t → Q a b s t) :
    Lockstep sure f g P (Pure.pure a) (Pure.pure b) Q := fun _ _ => h _ _

theorem throw (e e' : Failure) :
    Lockstep sure f g P (throw e : ExceptT Failure (StateM σ) α) (throw e' : ExceptT Failure (StateM τ) β) Q :=
  fun _ _ _ => trivial

/-- Where that is not `sure`, one side may fail alone. -/
theorem throw_left (h : ¬sure) (e : Failure) : Lockstep sure f g P (MonadExcept.throw e) m' Q := by
  intro s t _
  rcases m'.run.run t with ⟨_ | b, t'⟩
  · trivial
  · exact h

theorem throw_right (h : ¬sure) (e : Failure) : Lockstep sure f g P m (MonadExcept.throw e) Q := by
  intro s t _
  rcases m.run.run s with ⟨_ | a, s'⟩
  · trivial
  · exact h

/-- What does not depend on the states, such as `A`, can be assumed. -/
theorem assume {A : Prop} (h : A → Lockstep sure f g P m m' Q) :
    Lockstep sure f g (fun s t => A ∧ P s t) m m' Q :=
  fun s t hst => h hst.1 s t hst.2

/-- States that are related by some `P i` are so by one of them. -/
theorem pick {ι : Type} {P : ι → S → T → Prop} (h : ∀ i, Lockstep sure f g (P i) m m' Q) :
    Lockstep sure f g (fun s t => ∃ i, P i s t) m m' Q :=
  fun s t ⟨i, hst⟩ => h i s t hst

/-- Loops over the elements of `as` and `bs`, which `A` relates. -/
theorem forM {A : α → β → Prop} {k : α → ExceptT Failure (StateM σ) Unit}
    {k' : β → ExceptT Failure (StateM τ) Unit}
    (h : ∀ a b, A a b → Lockstep sure f g P (k a) (k' b) fun _ _ => P) {as : List α} {bs : List β}
    (hrel : List.Forall₂ A as bs) : Lockstep sure f g P (as.forM k) (bs.forM k') fun _ _ => P := by
  induction hrel with
  | nil => exact pure fun _ _ hst => hst
  | cons hab _ ih => exact (h _ _ hab).bind fun _ _ => ih

/-- Operations `n` and `n'` that are done on the same condition, and then the rest. -/
theorem maybe {c c' : Prop} [Decidable c] [Decidable c'] {n : ExceptT Failure (StateM σ) γ}
    {n' : ExceptT Failure (StateM τ) δ} (hc : c' ↔ c) (hn : Lockstep sure f g P n n' fun _ _ => P)
    (hm : Lockstep sure f g P m m' Q) :
    Lockstep sure f g P (if c then n >>= fun _ => m else m) (if c' then n' >>= fun _ => m' else m') Q := by
  by_cases h : c
  · rw [if_pos h, if_pos (hc.2 h)]
    exact hn.bind fun _ _ => hm
  · rw [if_neg h, if_neg (mt hc.1 h)]
    exact hm

end Lockstep

namespace SessionM

/-- The operations `m` and `m'` on sessions side by side; what they tell does not count. -/
abbrev Paired (sure : Prop) (P : Session → Session → Prop) (m : SessionM α) (m' : SessionM β)
    (Q : α → β → Session → Session → Prop) : Prop :=
  Lockstep sure Run.session Run.session P m m' Q

namespace Paired

variable {sure : Prop} {P P' : Session → Session → Prop} {m : SessionM α} {m' : SessionM β}
  {Q : α → β → Session → Session → Prop}

/-- What `m` and `m'` do on their own counts as well. -/
theorem along {L R : Session → Prop} {L' : α → Session → Prop} {R' : β → Session → Prop}
    {E E' : Failure → Session → Prop} (h : Paired sure P m m' Q) (left : Triple L m L' E)
    (right : Triple R m' R' E') :
    Paired sure (fun s s' => P s s' ∧ L s ∧ R s') m m' fun a b s s' => Q a b s s' ∧ L' a s ∧ R' b s' := by
  rintro r r' ⟨hP, hL, hR⟩
  have hrun := h r r' hP
  have hleft := left r hL
  have hright := right r' hR
  unfold wp on at hleft hright
  revert hrun hleft hright
  rcases m.run.run r with ⟨_ | a, q⟩ <;> rcases m'.run.run r' with ⟨_ | b, q'⟩ <;>
    intro hrun hleft hright
  · trivial
  · exact hrun
  · exact hrun
  · exact ⟨hrun, hleft, hright⟩

/-- Operations `m` and `m'` of which it is known what each does. Where that is `sure`, none may fail
    where the other answers. -/
theorem sides {L R : Session → Prop} {A : α → Session → Prop} {A' : β → Session → Prop}
    {E E' : Failure → Session → Prop} (left : Triple L m A E) (right : Triple R m' A' E')
    (both : ∀ a b s s', A a s → A' b s' → Q a b s s')
    (first : sure → ∀ e b s s', E e s → ¬A' b s') (second : sure → ∀ a e s s', A a s → ¬E' e s') :
    Paired sure (fun s s' => L s ∧ R s') m m' Q := by
  rintro r r' ⟨hL, hR⟩
  have hleft := left r hL
  have hright := right r' hR
  unfold wp on at hleft hright
  revert hleft hright
  rcases m.run.run r with ⟨e | a, q⟩ <;> rcases m'.run.run r' with ⟨e' | b, q'⟩ <;> intro hleft hright
  · trivial
  · exact fun hsure => first hsure e b _ _ hleft hright
  · exact fun hsure => second hsure a e' _ _ hleft hright
  · exact both a b _ _ hleft hright

/-- Sessions that are read are related by `P`. -/
theorem peek {f : Session → SessionM α} {f' : Session → SessionM β}
    (h : ∀ s s', P s s' → Paired sure (fun t t' => t = s ∧ t' = s' ∧ P s s') (f s) (f' s') Q) :
    Paired sure P (session >>= f) (session >>= f') Q :=
  fun r r' hr => h r.session r'.session hr r r' ⟨rfl, rfl, hr⟩

/-- Sessions that are read for what they have in common. -/
theorem read {f : Session → SessionM α} {f' : Session → SessionM β}
    (h : ∀ s s', P s s' → Paired sure P (f s) (f' s') Q) :
    Paired sure P (session >>= f) (session >>= f') Q :=
  fun r r' hr => h r.session r'.session hr r r' hr

theorem update {f f' : Session → Session} {Q : Unit → Unit → Session → Session → Prop}
    (h : ∀ s s', P s s' → Q () () (f s) (f' s')) : Paired sure P (update f) (update f') Q :=
  fun r r' hr => h r.session r'.session hr

theorem tell (e e' : Event) : Paired sure P (tell e) (tell e') fun _ _ => P := fun _ _ hr => hr

/-- Answers `x` and `y` that are there already, or failures. -/
theorem ofAgree {x : Except Failure α} {y : Except Failure β} :
    Paired sure (fun s s' => Agree sure (fun a b => Q a b s s') x y) (ofFailure x) (ofFailure y) Q := by
  intro r r' hr
  rcases x with _ | a <;> rcases y with _ | b <;> exact hr

theorem ofFailure {A : α → β → Prop} {x : Except Failure α} {y : Except Failure β}
    (h : Agree sure A x y) :
    Paired sure P (ofFailure x) (ofFailure y) fun a b s s' => A a b ∧ P s s' := by
  intro r r' hr
  rcases x with _ | a <;> rcases y with _ | b
  · trivial
  · exact h
  · exact h
  · exact ⟨h, hr⟩

theorem ofViolation {A : α → β → Prop} {x : Except Violation α} {y : Except Violation β}
    (h : Agree sure A x y) :
    Paired sure P (ofViolation x) (ofViolation y) fun a b s s' => A a b ∧ P s s' := by
  intro r r' hr
  rcases x with _ | a <;> rcases y with _ | b
  · trivial
  · exact h
  · exact h
  · exact ⟨h, hr⟩

theorem ofBuild {A : α → β → Prop} {x : Except BuildError α} {y : Except BuildError β}
    (h : Agree sure A x y) :
    Paired sure P (ofBuild x) (ofBuild y) fun a b s s' => A a b ∧ P s s' := by
  intro r r' hr
  rcases x with _ | a <;> rcases y with _ | b
  · trivial
  · exact h
  · exact h
  · exact ⟨h, hr⟩

theorem requireStage (t : Stage) (step : String) (h : ∀ s s', P s s' → s'.stage = s.stage) :
    Paired sure P (requireStage t step) (requireStage t step) fun _ _ => P := by
  refine read fun s s' hP => ?_
  rw [h s s' hP]
  by_cases ht : s.stage ≠ t
  · rw [if_pos ht]
    exact Lockstep.throw _ _
  · rw [if_neg ht]
    exact Lockstep.pure fun _ _ hr => hr

end Paired

end SessionM

end SnapshotArchive
