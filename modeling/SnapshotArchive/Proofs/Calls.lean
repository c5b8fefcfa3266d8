import Mathlib.Tactic.Common
import SnapshotArchive.Proofs.FinalPass
import SnapshotArchive.Proofs.Wires

/-!
Sessions that callers can get to. A session begins, and then anything may be called on it, in any order
and whether or not earlier calls failed. All such sessions are sound.
-/

namespace SnapshotArchive

open SessionM

/-- What may be called on a session. -/
inductive Call where
  | gather (roots : List Word)
  | reserveBuffer (advisories : Advisories)
  | allocateOther (bytes : Nat)
  | writeWord (slot : Addr .buffer) (w : Word)
  | verifyEstimate (estimate : Nat) (label : String)
  | copyMutable (tables : TableProvider)
  | copyReadOnly (tables : TableProvider)
  | recordReplaced (former substitute : Word)
  | markPointer (slot : Addr .buffer)
  | setPointer (slot value : Addr .buffer)
  | clearPointer (slot : Addr .buffer)
  | writePointer (slot : Addr .buffer) (source? : Option Word)
  | wire
  | relocate

namespace Call

/-- The operation that is called. -/
def run : Call → SessionM Unit
  | gather roots => SessionM.gather roots
  | reserveBuffer advisories => SessionM.reserveBuffer advisories
  | allocateOther bytes => SessionM.allocateOther bytes >>= fun _ => pure ()
  | writeWord slot w => SessionM.writeWord slot w
  | verifyEstimate estimate label => SessionM.verifyEstimate estimate label
  | copyMutable tables => SessionM.copyMutable tables
  | copyReadOnly tables => SessionM.copyReadOnly tables
  | recordReplaced former substitute => SessionM.recordReplaced former substitute
  | markPointer slot => SessionM.markPointer slot
  | setPointer slot value => SessionM.setPointer slot value
  | clearPointer slot => SessionM.clearPointer slot
  | writePointer slot source? => SessionM.writePointer slot source?
  | wire => SessionM.wire
  | relocate => SessionM.relocate

/-- The session `s` after the call `c`, whether it succeeded or failed. -/
def after (c : Call) (s : Session) : Session := (c.run.perform s).2.session

/-- Every call keeps a session sound. -/
theorem keeps_run : ∀ c : Call, Keeps Session.Sound c.run
  | gather roots => keeps_gather roots
  | reserveBuffer advisories => keeps_reserveBuffer advisories
  | allocateOther bytes => (keeps_allocateOther bytes).bind fun _ _ h => h
  | writeWord slot w => keeps_touching fun _ => (slotting_writeWord slot w).touching
  | verifyEstimate estimate label => keeps_touching fun _ => touching_verifyEstimate estimate label
  | copyMutable _ => keeps_copyMutable
  | copyReadOnly _ => keeps_copyReadOnly
  | recordReplaced former substitute => keeps_recordReplaced former substitute
  | markPointer slot => keeps_touching fun _ => (slotting_markPointer slot).touching
  | setPointer slot value => keeps_touching fun _ => (slotting_setPointer slot value).touching
  | clearPointer slot => keeps_touching fun _ => (slotting_clearPointer slot).touching
  | writePointer slot source? => keeps_touching fun _ => (slotting_writePointer slot source?).touching
  | wire => keeps_wire
  | relocate => keeps_relocate

theorem after_of_keeps {P : Session → Prop} {c : Call} {s : Session} (hc : Keeps P c.run) (h : P s) :
    P (c.after s) := by
  unfold after
  obtain ⟨_, -, hs⟩ | ⟨_, -, hs⟩ := hc.perform h <;> exact hs

theorem sound_after (c : Call) {s : Session} (h : s.Sound) : (c.after s).Sound :=
  after_of_keeps c.keeps_run h

end Call

namespace Session

/-- The session `s` after some `calls`. -/
def afterCalls (s : Session) (calls : List Call) : Session := calls.foldl (fun s c => c.after s) s

theorem afterCalls_append (s : Session) (calls more : List Call) :
    s.afterCalls (calls ++ more) = (s.afterCalls calls).afterCalls more := List.foldl_append ..

/-- The sessions that `begin` somehow and are then called in any order. -/
inductive Reachable : Session → Prop where
  | begin {host : Host} {reservations : Reservations} {settings : Settings}
      {mapped? : Option (AddrRange .mapped)} {alive : Bool} {s : Session}
      (h : Session.begin host reservations settings mapped? alive = .ok s) : Reachable s
  | call {s : Session} (h : Reachable s) (c : Call) : Reachable (c.after s)

theorem Reachable.ofFresh {host : Host} {reservations : Reservations} {settings : Settings}
    (h : settings.validate = .ok ()) : (fresh host reservations settings none).Reachable :=
  .begin (begin_fresh h)

theorem Reachable.afterCalls {s : Session} (h : s.Reachable) :
    ∀ calls : List Call, (s.afterCalls calls).Reachable
  | [] => h
  | c :: calls => Reachable.afterCalls (h.call c) calls

theorem Reachable.sound {s : Session} (h : s.Reachable) : s.Sound := by
  induction h with
  | begin h => exact sound_begin h
  | call _ c ih => exact c.sound_after ih

end Session

end SnapshotArchive
