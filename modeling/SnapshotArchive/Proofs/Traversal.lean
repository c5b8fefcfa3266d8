import SnapshotArchive.Proofs.Triples

/-!
Rules for the traversal of a host. A property of the references that are still pending is carried from
report to report; the fuel lasts as long as the references that may still come are counted by a weight
of the session.
-/

namespace SnapshotArchive

namespace Host

open SessionM

variable {host : Host} {report : Edge → SessionM Visit}

theorem walk_cons (fuel : Nat) (e : Edge) (rest : List Edge) :
    host.walk report (fuel + 1) (e :: rest) =
      report e >>= fun v =>
        match v with
        | .skip => host.walk report fuel rest
        | .recurse =>
          match host.edges e.pointee with
          | .ok held => host.walk report fuel (held ++ rest)
          | .error f => throw (.fault f) := rfl

/-- What each report of references of the kind `A` keeps is kept by the traversal, if what is looked
    into holds no others. -/
theorem keeps_walk {P : Session → Prop} {A : Edge → Prop}
    (h : ∀ e, A e → Triple P (report e) (fun v s => P s ∧
      (v = .recurse → ∀ held, host.edges e.pointee = .ok held → ∀ x ∈ held, A x)) fun _ => P) :
    ∀ (fuel : Nat) (pending : List Edge), (∀ e ∈ pending, A e) → Keeps P (host.walk report fuel pending)
  | 0, _, _ => fun _ hr => by rw [walk]; exact hr
  | _ + 1, [], _ => fun _ hr => by rw [walk]; exact hr
  | fuel + 1, e :: rest, hA => by
    rw [walk_cons]
    obtain ⟨hAe, hArest⟩ := List.forall_mem_cons.1 hA
    refine (h e hAe).bind fun v => ?_
    rintro r ⟨hP, hheld⟩
    cases v with
    | skip => exact keeps_walk h fuel rest hArest r hP
    | recurse =>
      dsimp only
      cases hedges : host.edges e.pointee with
      | ok held =>
        exact keeps_walk h fuel (held ++ rest) (List.forall_mem_append.2 ⟨hheld rfl held hedges, hArest⟩) r hP
      | error f => exact hP

theorem keeps_visit_among {P : Session → Prop} {A : Edge → Prop}
    (h : ∀ e, A e → Triple P (report e) (fun v s => P s ∧
      (v = .recurse → ∀ held, host.edges e.pointee = .ok held → ∀ x ∈ held, A x)) fun _ => P) {root : Word}
    (hroot : ∀ e, host.rootEdge? root = some e → A e) : Keeps P (host.visit root report) := by
  unfold visit
  cases he : host.rootEdge? root with
  | none => exact fun _ hr => hr
  | some e => exact keeps_walk h _ _ fun x hx => List.mem_singleton.1 hx ▸ hroot e he

theorem keeps_visit {P : Session → Prop} (h : ∀ e, Keeps P (report e)) (root : Word) :
    Keeps P (host.visit root report) :=
  keeps_visit_among (A := fun _ => True) (fun e _ => (h e).conseq (fun _ hs => hs)
    (fun _ _ hs => ⟨hs, fun _ _ _ _ _ => trivial⟩) fun _ _ hs => hs) fun _ _ => trivial

/-- After a report of `e` what is pending satisfies `I`. -/
def Leaves {σ : Type} (host : Host) (I : List Edge → σ → Prop) (e : Edge) (rest : List Edge) (v : Visit)
    (s : σ) : Prop :=
  match v with
  | .skip => I rest s
  | .recurse => ∀ held, host.edges e.pointee = .ok held → I (held ++ rest) s

theorem Leaves.and {σ : Type} {host : Host} {I J : List Edge → σ → Prop} {e : Edge} {rest : List Edge}
    {v : Visit} {s : σ} (hI : host.Leaves I e rest v s) (hJ : host.Leaves J e rest v s) :
    host.Leaves (fun pending s => I pending s ∧ J pending s) e rest v s := by
  cases v with
  | skip => exact ⟨hI, hJ⟩
  | recurse => exact fun held hheld => ⟨hI held hheld, hJ held hheld⟩

/-- What a report of `e` must establish: `I` of what is pending afterwards, at no more weight than the
    references it adds leave. -/
def Reported (host : Host) (I : List Edge → Session → Prop) (weight : Session → Nat)
    (E : Failure → Session → Prop) (e : Edge) (rest : List Edge) (bound : Nat) (v : Visit)
    (s : Session) : Prop :=
  match v with
  | .skip => I rest s ∧ weight s ≤ bound
  | .recurse =>
    match host.edges e.pointee with
    | .ok held => I (held ++ rest) s ∧ held.length + weight s ≤ bound
    | .error f => E (.fault f) s

variable {I : List Edge → Session → Prop} {weight : Session → Nat} {E : Failure → Session → Prop}

/-- More may be known of what is pending: `J` beside `I`. -/
theorem Reported.and {E' : Failure → Session → Prop} {J : List Edge → Session → Prop} {e : Edge}
    {rest : List Edge} {bound : Nat} {v : Visit} {s : Session}
    (hI : Reported host I weight E e rest bound v s) (hJ : host.Leaves J e rest v s)
    (hfault : ∀ f, E' (.fault f) s) :
    Reported host (fun pending s => I pending s ∧ J pending s) weight E' e rest bound v s := by
  cases v with
  | skip => exact ⟨⟨hI.1, hJ⟩, hI.2⟩
  | recurse =>
    simp only [Reported] at hI ⊢
    cases hheld : host.edges e.pointee with
    | error f => exact hfault f
    | ok held =>
      rw [hheld] at hI
      exact ⟨⟨hI.1, hJ held hheld⟩, hI.2⟩

/-- The traversal ends with nothing pending if its `fuel` covers what is `pending` and what may
    come. -/
theorem triple_walk
    (h : ∀ e rest s, I (e :: rest) s →
      Triple (· = s) (report e) (Reported host I weight E e rest (weight s)) E) :
    ∀ (fuel : Nat) (pending : List Edge) (s : Session), I pending s →
      pending.length + weight s ≤ fuel →
      Triple (· = s) (host.walk report fuel pending) (fun _ => I []) E
  | 0, pending, s, hI, hfuel => by
    obtain rfl : pending = [] := List.eq_nil_of_length_eq_zero (by omega)
    rintro r rfl
    rw [walk]
    exact hI
  | fuel + 1, [], s, hI, _ => by
    rintro r rfl
    rw [walk]
    exact hI
  -- a report takes one unit of fuel, and pays for what it puts on the stack out of the weight
  | fuel + 1, e :: rest, s, hI, hfuel => by
    rw [walk_cons]
    rw [List.length_cons] at hfuel
    refine (h e rest s hI).bind fun v => ?_
    intro r hr
    cases v with
    | skip => exact triple_walk h fuel rest _ hr.1 (by have := hr.2; omega) r rfl
    | recurse =>
      unfold Reported at hr
      dsimp only at hr ⊢
      cases hheld : host.edges e.pointee with
      | ok held =>
        rw [hheld] at hr
        exact triple_walk h fuel (held ++ rest) _ hr.1
          (by have := hr.2; rw [List.length_append]; omega) r rfl
      | error f =>
        rw [hheld] at hr
        exact hr

theorem triple_visit {root : Word} {s : Session} (weight : Session → Nat)
    (h : ∀ e rest s, I (e :: rest) s →
      Triple (· = s) (report e) (Reported host I weight E e rest (weight s)) E)
    (hnone : host.rootEdge? root = none → I [] s) (hroot : ∀ e, host.rootEdge? root = some e → I [e] s)
    (hweight : weight s ≤ host.edgeCount) :
    Triple (· = s) (host.visit root report) (fun _ => I []) E := by
  unfold visit
  cases he : host.rootEdge? root with
  | none => rintro r rfl; exact hnone he
  | some e => exact triple_walk h _ _ s (hroot e he) (by rw [List.length_singleton]; omega)

end Host

end SnapshotArchive
