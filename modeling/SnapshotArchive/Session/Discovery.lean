import SnapshotArchive.Session.Basic
import SnapshotArchive.Sorting
import Std.Data.TreeSet

/-!
Gathering: which objects go into the archive. A survey of the graph first finds type descriptors and
interned strings and estimates sizes. Sorted, these become the first roots of the second walk, which
enters every object in the catalog; so its order does not depend on where the host put them.
-/

namespace SnapshotArchive

namespace Session

/-- Whether a type descriptor is left out. Array descriptors are not supported on top of another
    archive. -/
def isExcluded (s : Session) (e : Edge) : Bool :=
  e.kind.isTypeDescriptor &&
    ((e.kind == .arrayDescriptor && s.isIncremental) || s.host.isExcluded e.pointee)

/-- What happens to the target of `e`. -/
def classify (s : Session) (e : Edge) : Disposition :=
  if s.dependency?.any (·.mapped.contains e.pointee) then .aliasToExisting
  else if e.kind.isTransient || s.isExcluded e then .nullOut
  else .copy

/-- What the survey has found. -/
structure Survey where
  seen : Std.TreeSet Word
  descriptors : Array Word
  strings : Array Word
  estimate : SizeEstimate

/-- Counts the target of `e`, which will be copied. -/
def Survey.count (v : Survey) (e : Edge) : Survey :=
  let v :=
    if e.kind.isTypeDescriptor then
      { v with
        descriptors := v.descriptors.push e.pointee
        estimate := v.estimate.addDescriptor }
    else if e.kind = .internedString then { v with strings := v.strings.push e.pointee }
    else v
  { v with estimate := v.estimate.addObject e.size }

/-- Surveys the target of `e`, once. -/
def surveyEdge (s : Session) (e : Edge) : ExceptT Failure (StateM Survey) Visit := do
  let v ← get
  if v.seen.contains e.pointee then return .skip
  let v := { v with seen := v.seen.insert e.pointee }
  if s.classify e = .copy then
    set (v.count e)
    return .recurse
  else
    set v
    return .skip

/-- Surveys all that is reachable from `roots`. -/
def survey (s : Session) (roots : List Word) : Except Failure Unit × Survey :=
  (roots.forM fun root => s.host.visit root s.surveyEdge).run.run
    { seen := ∅
      descriptors := s.typeDescriptors.toArray
      strings := s.internedStrings.toArray
      estimate := s.estimate }

/-- Keeps what the survey `v` has found. -/
def keepSurvey (s : Session) (v : Survey) : Session :=
  { s with
    typeDescriptors := v.descriptors.toList
    internedStrings := v.strings.toList
    estimate := v.estimate }

/-- The first of two equal neighbours. -/
def repeated? : List Word → Option Word
  | a :: b :: rest => if a = b then some a else repeated? (b :: rest)
  | _ => none

/-- Type descriptors by name; those of one name stay in order. -/
def sortedByName (s : Session) (descriptors : List Word) : List Word :=
  (sortBy (fun a b => !decide (b.1 < a.1))
    (descriptors.map fun d => (s.host.typeName d, d))).map (·.2)

end Session

namespace SessionM

open Session

/-- Enters the pointer field of a reference in the ledger bits of its object. Fields of objects that
    are not copied are never written, so they are not entered. -/
def noteField (e : Edge) : SessionM Unit := do
  match e.origin? with
  | none => return
  | some place =>
    let s ← session
    match s.catalog.get? place.enclosing with
    | none => return
    | some entry =>
      if entry.isCopied then
        let kind := RegionKind.ofReadOnly entry.readOnly
        let (l, entry) ← ofFailure ((s.copyList kind).markField entry place.field)
        update fun s => { s with catalog := s.catalog.put entry }.changeList kind fun _ => l

/-- Puts the object of `entry` at the end of the list of its region. -/
def acceptEntry (entry : SourceEntry) : SessionM Unit :=
  update fun s =>
    let kind := RegionKind.ofReadOnly entry.readOnly
    let entry := (s.copyList kind).listed entry
    { s with catalog := s.catalog.put entry }.changeList kind (·.accept entry)

/-- Enters the target of `e` in the catalog. A replaced object is only noted; its substitute is
    archived instead. What is copied is looked into once. -/
def registerEdge (e : Edge) : SessionM Visit := do
  noteField e
  let s ← session
  if s.host.hasSubstitute e.pointee then
    if !s.replaced.contains e.pointee then
      tell (.skippedReplaced e.pointee)
      update fun s => { s with replaced := s.replaced.push e.pointee }
    return .skip
  let disposition := s.classify e
  if disposition = .nullOut && e.kind.isTypeDescriptor then tell (.skippedExcluded e.pointee)
  let found := SourceEntry.found e.pointee disposition e.kind e.size e.readOnly
  let (catalog, created) := s.catalog.add found
  update ({ · with catalog })
  let entry := (catalog.get? e.pointee).getD found
  if entry.readOnly ≠ e.readOnly then violate (.inconsistentMutability e.pointee)
  if created && entry.isCopied then
    acceptEntry entry
    return .recurse
  else return .skip

/-- Finds type descriptors and interned strings, estimates, and sorts. -/
def gatherSeeds (roots : List Word) : SessionM Unit := do
  tell .gatheringDescriptors
  let s ← session
  let (outcome, v) := s.survey roots
  -- kept also if the survey failed
  update (·.keepSurvey v)
  ofFailure outcome
  if !s.isIncremental then
    update fun s => { s with estimate := s.estimate.addBytes s.settings.placeholderBytes }
  tell .sortingStrings
  update fun s =>
    { s with internedStrings := sortBy (fun a b => decide (a ≤ b)) s.internedStrings }
  match repeated? (← session).internedStrings with
  | some a => violate (.duplicateInternedString a)
  | none =>
    tell .sortingDescriptors
    update fun s => { s with typeDescriptors := s.sortedByName s.typeDescriptors }

/-- Discovers, classifies and catalogs all that is reachable from `roots`. -/
def gather (roots : List Word) : SessionM Unit := do
  requireStage .new "gather_source_objs"
  gatherSeeds roots
  tell .gatheringObjects
  let s ← session
  (s.internedStrings ++ s.typeDescriptors ++ roots).forM fun root =>
    s.host.visit root registerEdge
  let s ← session
  tell (.gathered s.catalog.size s.mutableList.sources.size s.readOnlyList.sources.size)
  enter .gathered

end SessionM

end SnapshotArchive
