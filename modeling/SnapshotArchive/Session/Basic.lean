import SnapshotArchive.Catalog.Basic
import SnapshotArchive.Catalog.CopyList
import SnapshotArchive.Graph.Host
import SnapshotArchive.Report.Event
import SnapshotArchive.Session.Output
import SnapshotArchive.Settings.Basic

/-!
Build sessions. A session goes through stages: it gathers objects, reserves the buffer, copies the
objects of either region, wires their pointers within the buffer, and shifts all pointers to where the
archive will be mapped. Each operation belongs to some of the stages.

An operation changes the session, tells events, and answers or fails; what it changed before it failed
stays changed.
-/

namespace SnapshotArchive

/-- How far a session is. -/
inductive Stage where
  | new | gathered | reserved | mutableCopied | readOnlyCopied | wired | relocated
  deriving DecidableEq

/-- Position of a stage. -/
def Stage.rank : Stage → Nat
  | new => 0
  | gathered => 1
  | reserved => 2
  | mutableCopied => 3
  | readOnlyCopied => 4
  | wired => 5
  | relocated => 6

/-- Whether `s` comes before `t`. -/
def Stage.before (s t : Stage) : Bool := s.rank < t.rank

/-- The archive that a new one extends: where it is mapped now, and where it is requested. -/
structure Dependency where
  mapped : AddrRange .mapped
  requested : AddrRange .requested

namespace Dependency

/-- From where the dependency is mapped to where it is requested. -/
def shift (d : Dependency) : Shift .mapped .requested := .between d.mapped.bottom d.requested.bottom

/-- A dependency mapped at `mapped` is requested at `base`. -/
def plan (base : Word) (mapped : AddrRange .mapped) : Except BuildError Dependency :=
  match AddrRange.ofLength? ⟨base⟩ mapped.length with
  | some requested => .ok ⟨mapped, requested⟩
  | none => .error (.baseAddressTooHigh base.toNat base.toNat maxBytes)

end Dependency

/-- A build session over a host. -/
structure Session where
  host : Host
  reservations : Reservations
  settings : Settings
  dependency? : Option Dependency
  stage : Stage
  catalog : Catalog
  mutableList : CopyList
  readOnlyList : CopyList
  /-- Type descriptors to archive, by name once gathered. -/
  typeDescriptors : List Word
  /-- Interned strings to archive, by address once gathered. -/
  internedStrings : List Word
  /-- Objects that were replaced, in the order they were found. -/
  replaced : Array Word
  estimate : SizeEstimate
  output? : Option Output
  stats : Stats

namespace Session

/-- Begins a session, unless another one is `alive`. -/
def begin (host : Host) (reservations : Reservations) (settings : Settings)
    (mapped? : Option (AddrRange .mapped)) (alive : Bool) : Except BuildError Session := do
  match settings.validate with
  | .error e => throw (.settings e)
  | .ok () =>
    if alive then throw .sessionActive
    let dependency? ← mapped?.mapM (Dependency.plan settings.requestedBase)
    return {
      host
      reservations
      settings
      dependency?
      stage := .new
      catalog := .empty
      mutableList := .empty
      readOnlyList := .empty
      typeDescriptors := []
      internedStrings := []
      replaced := #[]
      estimate := .zero
      output? := none
      stats := .zero }

/-- Whether the archive extends another one. -/
def isIncremental (s : Session) : Bool := s.dependency?.isSome

/-- The objects of a region, as `gather` listed them. -/
def copyList (s : Session) : RegionKind → CopyList
  | .mutable => s.mutableList
  | .readOnly => s.readOnlyList

/-- Changes the list of `kind` by `f`. -/
def changeList (s : Session) (kind : RegionKind) (f : CopyList → CopyList) : Session :=
  match kind with
  | .mutable => { s with mutableList := f s.mutableList }
  | .readOnly => { s with readOnlyList := f s.readOnlyList }

/-- What a finished session has made. -/
structure Archive where
  buffer : Buffer
  mutable : Region
  readOnly : Region
  pointers : Ledger
  requested : AddrRange .requested

/-- The archive; none before the session is finished. -/
def archive? (s : Session) : Option Archive :=
  if s.stage = .relocated then do
    let o ← s.output?
    let requested ← AddrRange.ofBounds? o.requestedBottom (← o.requestedTop?)
    return ⟨o.buffer, o.arena.mutable, o.arena.readOnly, o.pointers, requested⟩
  else none

end Session

/-- A session and what it told so far. -/
structure Run where
  session : Session
  events : Array Event

/-- Operations on a session. -/
abbrev SessionM := ExceptT Failure (StateM Run)

namespace SessionM

/-- Runs `m` from `s`: the answer or failure, the session afterwards, and what was told. -/
def perform {α : Type} (m : SessionM α) (s : Session) : Except Failure α × Run := m.run.run ⟨s, #[]⟩

/-- Fails by the violation `v`. -/
def violate {α : Type} (v : Violation) : SessionM α := throw (.error (.invariant v))

/-- Tells an event. -/
def tell (e : Event) : SessionM Unit := modify fun r => { r with events := r.events.push e }

/-- The session as it is now. -/
def session : SessionM Session := do return (← get).session

/-- Changes the session. -/
def update (f : Session → Session) : SessionM Unit := modify fun r => { r with session := f r.session }

/-- An answer `a`, or a violation. -/
def ofViolation {α : Type} : Except Violation α → SessionM α
  | .ok a => pure a
  | .error v => violate v

/-- An answer, or a build error. -/
def ofBuild {α : Type} : Except BuildError α → SessionM α
  | .ok a => pure a
  | .error e => throw (.error e)

/-- An answer, or a failure. -/
def ofFailure {α : Type} : Except Failure α → SessionM α
  | .ok a => pure a
  | .error e => throw e

/-- Fails unless the session is at `stage`. -/
def requireStage (stage : Stage) (step : String) : SessionM Unit := do
  if (← session).stage ≠ stage then violate (.outOfOrder step)

/-- Goes on to `stage`. -/
def enter (stage : Stage) : SessionM Unit := update ({ · with stage })

/-- The output, once reserved; before that, `step` is out of order. -/
def output (step : String) : SessionM Output := do
  match (← session).output? with
  | some o => return o
  | none => violate (.outOfOrder step)

/-- The output, while it may still change: `stage` comes before `relocated`. -/
def openOutput (step : String) : SessionM Output := do
  let s ← session
  match s.output? with
  | some o => if s.stage.before .relocated then return o else violate (.outOfOrder step)
  | none => violate (.outOfOrder step)

/-- Replaces the output by `o`. -/
def setOutput (o : Output) : SessionM Unit := update ({ · with output? := some o })

/-- Changes the output by `f`, if there is one. -/
def changeOutput (f : Output → Output) : SessionM Unit :=
  update fun s => { s with output? := s.output?.map f }

end SessionM

end SnapshotArchive
