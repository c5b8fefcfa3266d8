import Mathlib.Tactic.Common
import SnapshotArchive.Proofs.MarkedWords

/-!
Calls that fail and leave no trace. Reserving, allocating, checking the estimate, storing in slots by hand
and recording a replacement are done as a whole or not at all: a call that is refused leaves the whole
session as it was. So a history from which refused calls are taken out leads through the same sessions, and
each of the other calls is made on the session on which it was made before.
-/

namespace SnapshotArchive

open SessionM Session

namespace Call

/-- The calls that are done as a whole or not at all. Gathering, copying, wiring and the final pass
    may fail half-way. -/
def isAtomic : Call → Bool
  | reserveBuffer _ | allocateOther _ | writeWord _ _ | verifyEstimate _ _ | markPointer _ | setPointer _ _
  | clearPointer _ | writePointer _ _ | recordReplaced _ _ => true
  | gather _ | copyMutable _ | copyReadOnly _ | wire | relocate => false

/-- What an atomic call leaves if it fails: `s` as it was. -/
theorem triple_atomic {s : Session} (h : s.Sound) :
    ∀ c : Call, c.isAtomic = true → Triple (· = s) c.run (fun _ _ => True) (fun _ s' => s' = s)
  | reserveBuffer advisories, _ =>
    (triple_reserveBuffer h.settings advisories).conseq (fun _ hs => hs) (fun _ _ _ => trivial)
      fun _ _ hs => hs
  | allocateOther bytes, _ =>
    ((triple_allocateOther h.arenas bytes).conseq (fun _ hs => hs) (fun _ _ _ => trivial)
      fun _ _ hs => hs.1).bind fun _ _ _ => trivial
  | writeWord slot w, _ => ofSlotting (slotting_writeWord slot w)
  | verifyEstimate estimate label, _ =>
    (triple_verifyEstimate estimate label).conseq (fun _ hs => hs) (fun _ _ _ => trivial) fun _ _ hs => hs.1
  | markPointer slot, _ => ofSlotting (slotting_markPointer slot)
  | setPointer slot value, _ => ofSlotting (slotting_setPointer slot value)
  | clearPointer slot, _ => ofSlotting (slotting_clearPointer slot)
  | writePointer slot source?, _ => ofSlotting (slotting_writePointer slot source?)
  | recordReplaced former substitute, _ =>
    (triple_recordReplaced s former substitute).conseq (fun _ hs => hs) (fun _ _ _ => trivial)
      fun _ _ hs => hs
where
  ofSlotting {slot : Addr .buffer} {m : SessionM Unit} (hm : Slotting slot s m) :
      Triple (· = s) m (fun _ _ => True) (fun _ s' => s' = s) :=
    hm.conseq (fun _ hs => hs) (fun _ _ _ => trivial) fun _ _ hs => hs

/-- An atomic call `c` that fails changes nothing. -/
theorem after_of_error {c : Call} {s : Session} {f : Failure} (h : s.Sound) (hc : c.isAtomic = true)
    (hf : (c.run.perform s).1 = .error f) : c.after s = s := by
  obtain ⟨_, hok, -⟩ | ⟨_, -, hsame⟩ := (triple_atomic h c hc).perform rfl
  · exact nomatch hf.symm.trans hok
  · exact hsame

end Call

namespace Session

/-- A call with the session on which it is made. What it answers and tells depends on nothing else. -/
abbrev Attempt : Type := Session × Call

/-- The attempt `p` is an atomic call that fails. -/
def Attempt.refused (p : Attempt) : Bool := p.2.isAtomic && !(p.2.run.perform p.1).1.toOption.isSome

/-- Some calls on `s`, each with the session on which it is made. -/
def history (s : Session) : List Call → List Attempt
  | [] => []
  | c :: calls => (s, c) :: (c.after s).history calls

/-- What is left of the history of `calls` without those that are refused. -/
def effective (s : Session) (calls : List Call) : List Attempt := (s.history calls).filter (!·.refused)

variable {s : Session}

theorem after_of_refused (h : s.Sound) {c : Call} (hc : Attempt.refused (s, c) = true) : c.after s = s := by
  obtain ⟨hatomic, hanswer⟩ := Bool.and_eq_true_iff.1 hc
  cases hrun : (c.run.perform s).1 with
  | ok a =>
    rw [show (c.run.perform (s, c).1).1 = _ from hrun] at hanswer
    cases hanswer
  | error f => exact Call.after_of_error h hatomic hrun

theorem effective_cons_refused (h : s.Sound) {c : Call} (hc : Attempt.refused (s, c) = true)
    (calls : List Call) : s.effective (c :: calls) = s.effective calls := by
  unfold effective
  rw [history, List.filter_cons_of_neg (by simp [hc]), after_of_refused h hc]

theorem effective_cons {c : Call} (hc : Attempt.refused (s, c) = false) (calls : List Call) :
    s.effective (c :: calls) = (s, c) :: (c.after s).effective calls := by
  unfold effective
  rw [history, List.filter_cons_of_pos (by simp [hc])]

/-- Without the refused ones of `calls`, the others are made on the same sessions, and the last
    session is the same. -/
theorem history_effective (h : s.Sound) (calls : List Call) :
    s.history ((s.effective calls).map (·.2)) = s.effective calls ∧
      s.afterCalls ((s.effective calls).map (·.2)) = s.afterCalls calls := by
  induction calls generalizing s with
  | nil => exact ⟨rfl, rfl⟩
  | cons c rest ih =>
    cases hc : Attempt.refused (s, c) with
    | true =>
      have hafter : s.afterCalls (c :: rest) = s.afterCalls rest :=
        congrArg (·.afterCalls rest) (after_of_refused h hc)
      rw [effective_cons_refused h hc, hafter]
      exact ih h
    | false =>
      rw [effective_cons hc]
      obtain ⟨hhistory, hafter⟩ := ih (c.sound_after h)
      exact ⟨congrArg ((s, c) :: ·) hhistory, hafter⟩

/-- A call that is refused leaves every part of `s` as it was, and a session continues as if it had
    not been made: any `calls` on it lead to the same last session without those among them that are
    refused, and each of the others is made on the same session. -/
theorem refused_calls_change_nothing (h : s.Reachable) :
    (∀ (c : Call) f, c.isAtomic = true → (c.run.perform s).1 = .error f →
      (c.run.perform s).2.session = s) ∧
    ∀ calls : List Call,
      s.history ((s.effective calls).map (·.2)) = s.effective calls ∧
      s.afterCalls ((s.effective calls).map (·.2)) = s.afterCalls calls ∧
      ∀ p ∈ s.effective calls, p.2.isAtomic = true → ∃ a, (p.2.run.perform p.1).1 = .ok a := by
  refine ⟨fun c f hc hf => Call.after_of_error h.sound hc hf, fun calls => ?_⟩
  obtain ⟨hhistory, hafter⟩ := history_effective h.sound calls
  refine ⟨hhistory, hafter, fun p hp hatomic => ?_⟩
  have hanswer : (!p.refused) = true := (List.mem_filter.1 hp).2
  unfold Attempt.refused at hanswer
  rw [hatomic, Bool.true_and, Bool.not_not] at hanswer
  cases hrun : (p.2.run.perform p.1).1 with
  | ok a => exact ⟨a, rfl⟩
  | error f =>
    rw [hrun] at hanswer
    cases hanswer

/-- A history in which every atomic operation is refused once, at some stage or other. -/
def troubledCalls : List Call :=
  [.writeWord ⟨0x20010⟩ 5, .gather [0x100000000000], .allocateOther 8, .reserveBuffer ⟨0, 0, 64⟩,
    .reserveBuffer ⟨0, 0, 0⟩, .allocateOther 8, .allocateOther 0x10000, .verifyEstimate 0 "Tables",
    .recordReplaced 0x100000000008 0x100000000000, .markPointer ⟨0x20011⟩, .copyMutable noTables,
    .copyReadOnly noTables, .writePointer ⟨0x20010⟩ (some 5), .setPointer ⟨0x20010⟩ ⟨0x20010⟩,
    .clearPointer ⟨0x20010⟩, .setPointer ⟨0x1fff8⟩ ⟨0x20010⟩, .wire, .relocate]

/-- Without the calls that are refused it leads to the same archive. -/
theorem refused_calls_change_nothing_troubled :
    loneFresh.Reachable ∧
    (loneFresh.history troubledCalls).map Attempt.refused =
      [true, false, true, false, true, false, true, true, true, true, false, false, true, false, true, true,
        false, false] ∧
    (loneFresh.effective troubledCalls).length = 8 ∧
    loneFresh.afterCalls ((loneFresh.effective troubledCalls).map (·.2)) =
      loneFresh.afterCalls troubledCalls ∧
    (loneFresh.afterCalls troubledCalls).archive?.isSome = true := by
  have hreach : loneFresh.Reachable := .ofFresh (by decide +kernel)
  obtain ⟨-, hafter, -⟩ := (refused_calls_change_nothing hreach).2 troubledCalls
  exact ⟨hreach, by decide +kernel, by decide +kernel, hafter, by decide +kernel⟩

end Session

end SnapshotArchive
