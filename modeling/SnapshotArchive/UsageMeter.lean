import SnapshotArchive.Failure

/-!
How many bytes were allocated since the last check, over both regions, and the check that they were
no more than estimated.
-/

namespace SnapshotArchive

/-- The top of the current region at the last check, or where the region started if that was later,
    and the bytes used since the check in the region before. -/
structure UsageMeter where
  verifiedTop : Nat
  earlierUsed : Nat
  deriving DecidableEq

namespace UsageMeter

/-- Starts to count at `top`. -/
def start (top : Nat) : UsageMeter := ⟨top, 0⟩

/-- Allocation moves from a region that ends at `oldTop` to one that starts at `newTop`. -/
def switchRegion (m : UsageMeter) (oldTop newTop : Nat) : UsageMeter :=
  ⟨newTop, m.earlierUsed + (oldTop - m.verifiedTop)⟩

/-- Bytes used since the last check when the current region ends at `top`. -/
def used (m : UsageMeter) (top : Nat) : Nat := top - m.verifiedTop + m.earlierUsed

/-- Checks that no more than `estimate` bytes were used, and starts to count again. -/
def verify (m : UsageMeter) (top estimate : Nat) (label : String) : Except Violation UsageMeter :=
  let used := m.used top
  if estimate < used then .error (.estimateTooSmall label estimate used) else .ok (start top)

@[simp] theorem used_start (top : Nat) : (start top).used top = 0 := Nat.sub_self top

/-- Moving on to the next region keeps the count, wherever that region starts. -/
@[simp] theorem used_switchRegion (m : UsageMeter) (oldTop newTop : Nat) :
    (m.switchRegion oldTop newTop).used newTop = m.used oldTop := by
  simp only [used, switchRegion]
  omega

theorem used_add (m : UsageMeter) {top : Nat} (h : m.verifiedTop ≤ top) (n : Nat) :
    m.used (top + n) = m.used top + n := by
  unfold used
  omega

theorem used_le (m : UsageMeter) {top top' n : Nat} (h : top' ≤ top + n) :
    m.used top' ≤ m.used top + n := by
  unfold used
  omega

end UsageMeter

end SnapshotArchive
