import Mathlib.Tactic.Common
import SnapshotArchive.Proofs.Triples

/-!
Two operations run side by side, also where they fail. Both answer or both fail, and either way it is said
how the sessions are related afterwards; so the relation can be carried on past calls that fail.
-/

namespace SnapshotArchive

namespace SessionM

variable {α β γ δ : Type}

/-- From sessions that `P` relates both `m` and `m'` answer so that `Q` holds, or both fail so that
    `F` holds. -/
def Tandem (P : Session → Session → Prop) (m : SessionM α) (m' : SessionM β)
    (Q : α → β → Session → Session → Prop) (F : Session → Session → Prop) : Prop :=
  ∀ r r' : Run, P r.session r'.session →
    match m.on r, m'.on r' with
    | (.ok a, q), (.ok b, q') => Q a b q.session q'.session
    | (.error _, q), (.error _, q') => F q.session q'.session
    | _, _ => False

namespace Tandem

variable {P P' F F' : Session → Session → Prop} {m : SessionM α} {m' : SessionM β}
  {Q Q' : α → β → Session → Session → Prop}

theorem conseq (h : Tandem P m m' Q F) (hP : ∀ s t, P' s t → P s t)
    (hQ : ∀ a b s t, Q a b s t → Q' a b s t) (hF : ∀ s t, F s t → F' s t) : Tandem P' m m' Q' F' := by
  intro r r' hr
  have hrun := h r r' (hP _ _ hr)
  revert hrun
  rcases m.on r with ⟨_ | a, q⟩ <;> rcases m'.on r' with ⟨_ | b, q'⟩
  · exact hF _ _
  · exact id
  · exact id
  · exact hQ a b _ _

theorem bind {R : γ → δ → Session → Session → Prop} {k : α → SessionM γ} {k' : β → SessionM δ}
    (hm : Tandem P m m' Q F) (hk : ∀ a b, Tandem (Q a b) (k a) (k' b) R F) :
    Tandem P (m >>= k) (m' >>= k') R F := by
  intro r r' hr
  have hrun := hm r r' hr
  rw [on_bind, on_bind]
  revert hrun
  rcases m.on r with ⟨_ | a, q⟩ <;> rcases m'.on r' with ⟨_ | b, q'⟩
  · exact id
  · exact False.elim
  · exact False.elim
  · exact hk a b q q'

/-- What `m` keeps on its own, `L`, counts as well. -/
theorem along {L : Session → Prop} (h : Tandem P m m' Q F) (left : Keeps L m) :
    Tandem (fun s t => L s ∧ P s t) m m' (fun a b s t => L s ∧ Q a b s t) F := by
  intro r r' ⟨hL, hP⟩
  have hrun := h r r' hP
  have hleft := left r hL
  unfold wp at hleft
  revert hrun hleft
  rcases m.on r with ⟨_ | a, q⟩ <;> rcases m'.on r' with ⟨_ | b, q'⟩ <;> intro hrun hleft
  · exact hrun
  · exact hrun
  · exact hrun
  · exact ⟨hleft, hrun⟩

theorem pure {a : α} {b : β} (h : ∀ s t, P s t → Q a b s t) :
    Tandem P (Pure.pure a : SessionM α) (Pure.pure b : SessionM β) Q F := fun _ _ => h _ _

theorem throw (e e' : Failure) (h : ∀ s t, P s t → F s t) :
    Tandem P (throw e : SessionM α) (MonadExcept.throw e' : SessionM β) Q F := fun _ _ => h _ _

/-- The violations `v` and `v'` end an operation. -/
theorem violate {k : γ → SessionM α} {k' : γ → SessionM β} (v v' : Violation) (h : ∀ s t, P s t → F s t) :
    Tandem P (violate v >>= k) (SessionM.violate v' >>= k') Q F := fun _ _ => h _ _

/-- What does not depend on the sessions, such as `A`, can be assumed. -/
theorem assume {A : Prop} (h : A → Tandem P m m' Q F) : Tandem (fun s t => A ∧ P s t) m m' Q F :=
  fun r r' hr => h hr.1 r r' hr.2

/-- Sessions that are related by some `P i` are so by one of them. -/
theorem pick {ι : Type} {P : ι → Session → Session → Prop} (h : ∀ i, Tandem (P i) m m' Q F) :
    Tandem (fun s t => ∃ i, P i s t) m m' Q F := fun r r' ⟨i, hr⟩ => h i r r' hr

/-- What the sessions are known to satisfy, such as `A`, can be used. -/
theorem given {A : Prop} (hA : ∀ s t, P s t → A) (h : A → Tandem P m m' Q F) : Tandem P m m' Q F :=
  fun r r' hr => h (hA _ _ hr) r r' hr

/-- Less may be known of the sessions: `P'` instead of `P`. -/
theorem before (h : Tandem P m m' Q F) (hP : ∀ s t, P' s t → P s t) : Tandem P' m m' Q F :=
  h.conseq hP (fun _ _ _ _ hst => hst) fun _ _ hst => hst

/-- Sessions that are read. -/
theorem read {f : Session → SessionM α} {f' : Session → SessionM β}
    (h : ∀ s t, P s t → Tandem (fun s' t' => (s' = s ∧ t' = t) ∧ P s' t') (f s) (f' t) Q F) :
    Tandem P (session >>= f) (session >>= f') Q F :=
  fun r r' hr => h _ _ hr r r' ⟨⟨rfl, rfl⟩, hr⟩

theorem update {f f' : Session → Session} {Q : Unit → Unit → Session → Session → Prop}
    (h : ∀ s t, P s t → Q () () (f s) (f' t)) : Tandem P (update f) (update f') Q F :=
  fun _ _ => h _ _

theorem tell (e e' : Event) : Tandem P (tell e) (tell e') (fun _ _ => P) F := fun _ _ => id

theorem ofViolation (x : Except Violation α) (h : ∀ s t, P s t → F s t) :
    Tandem P (ofViolation x) (ofViolation x) (fun a b s t => (b = a ∧ x = .ok a) ∧ P s t) F := by
  intro r r' hr
  rcases x with v | a
  · exact h _ _ hr
  · exact ⟨⟨rfl, rfl⟩, hr⟩

theorem ofBuild (x : Except BuildError α) (h : ∀ s t, P s t → F s t) :
    Tandem P (ofBuild x) (ofBuild x) (fun a b s t => (b = a ∧ x = .ok a) ∧ P s t) F := by
  intro r r' hr
  rcases x with e | a
  · exact h _ _ hr
  · exact ⟨⟨rfl, rfl⟩, hr⟩

/-- The same loop over `xs` on both sides. -/
theorem forM {k k' : α → SessionM Unit} {xs : List α}
    (h : ∀ x ∈ xs, Tandem P (k x) (k' x) (fun _ _ => P) F) :
    Tandem P (xs.forM k) (xs.forM k') (fun _ _ => P) F := by
  induction xs with
  | nil => exact pure fun _ _ hst => hst
  | cons x rest ih =>
    exact (h x (List.mem_cons_self ..)).bind fun _ _ => ih fun y hy => h y (List.mem_cons_of_mem _ hy)

/-- Operations `n` and `n'` that are done on the condition `c`, and then the rest. -/
theorem maybe {c : Prop} [Decidable c] {n n' : SessionM γ} {R : Session → Session → Prop}
    (hP : ∀ s t, P s t → R s t) (hn : Tandem P n n' (fun _ _ => R) F) (hm : Tandem R m m' Q F) :
    Tandem P (if c then n >>= fun _ => m else m) (if c then n' >>= fun _ => m' else m') Q F := by
  by_cases h : c
  · rw [if_pos h, if_pos h]
    exact hn.bind fun _ _ => hm
  · rw [if_neg h, if_neg h]
    exact hm.before hP

theorem requireStage (t : Stage) (step : String) (hstage : ∀ s s', P s s' → s'.stage = s.stage)
    (h : ∀ s s', P s s' → F s s') :
    Tandem P (requireStage t step) (requireStage t step) (fun _ _ => P) F := by
  refine read fun s s' hP => ?_
  rw [hstage s s' hP]
  by_cases ht : s.stage ≠ t
  · rw [if_pos ht]
    exact throw _ _ fun _ _ hst => h _ _ hst.2
  · rw [if_neg ht]
    exact pure fun _ _ hst => hst.2

/-- A step that is out of order, at another stage than `t`, fails on both sides. -/
theorem outOfOrder {t : Stage} {step : String} {k : Unit → SessionM α} {k' : Unit → SessionM β}
    (hstage : ∀ s s', P s s' → s.stage ≠ t ∧ s'.stage = s.stage) (h : ∀ s s', P s s' → F s s') :
    Tandem P (SessionM.requireStage t step >>= k) (SessionM.requireStage t step >>= k') Q F := by
  refine bind (Q := fun _ _ _ _ => False) (read fun s s' hP => ?_) fun _ _ _ _ hfalse => hfalse.elim
  obtain ⟨hne, hsame⟩ := hstage s s' hP
  rw [hsame, if_pos hne]
  exact throw _ _ fun _ _ hst => h _ _ hst.2

/-- Both `m` and `m'` answer, or both fail. -/
theorem perform (h : Tandem P m m' Q F) {s t : Session} (hst : P s t) :
    (∃ a b, (m.perform s).1 = .ok a ∧ (m'.perform t).1 = .ok b ∧
      Q a b (m.perform s).2.session (m'.perform t).2.session) ∨
    ∃ e e', (m.perform s).1 = .error e ∧ (m'.perform t).1 = .error e' ∧
      F (m.perform s).2.session (m'.perform t).2.session := by
  have hrun := h ⟨s, #[]⟩ ⟨t, #[]⟩ hst
  rw [show m.on ⟨s, #[]⟩ = m.perform s from rfl, show m'.on ⟨t, #[]⟩ = m'.perform t from rfl] at hrun
  revert hrun
  rcases m.perform s with ⟨e | a, q⟩ <;> rcases m'.perform t with ⟨e' | b, q'⟩ <;> intro hrun
  · exact .inr ⟨e, e', rfl, rfl, hrun⟩
  · exact hrun.elim
  · exact hrun.elim
  · exact .inl ⟨a, b, rfl, rfl, hrun⟩

/-- What `R` says of the sessions afterwards in any case. -/
theorem after {R : Session → Session → Prop} (h : Tandem P m m' (fun _ _ => R) R) {s t : Session}
    (hst : P s t) : R (m.perform s).2.session (m'.perform t).2.session := by
  obtain ⟨_, _, -, -, hR⟩ | ⟨_, _, -, -, hR⟩ := h.perform hst <;> exact hR

end Tandem

end SessionM

end SnapshotArchive
