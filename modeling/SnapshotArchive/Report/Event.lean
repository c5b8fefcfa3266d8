import SnapshotArchive.Address.Shift
import SnapshotArchive.Estimate
import SnapshotArchive.Report.MapEntry
import SnapshotArchive.Stats.Report
import SnapshotArchive.UsageMeter

/-!
What a build tells about itself while it runs. Events are data; a reader picks categories and levels
and takes their text.
-/

namespace SnapshotArchive

open Text

/-- What an event is about. -/
inductive Category where
  | progress | relocation | stats | map
  deriving DecidableEq

/-- How important an event is. -/
inductive Level where
  | error | warn | info | debug | trace
  deriving DecidableEq

/-- Rank of a level; more detailed levels rank higher. -/
def Level.rank : Level → Nat
  | error => 0
  | warn => 1
  | info => 2
  | debug => 3
  | trace => 4

/-- Short name of a category. -/
def Category.name : Category → String
  | progress => "progress"
  | relocation => "reloc"
  | stats => "stats"
  | map => "map"

/-- Name of a level. -/
def Level.name : Level → String
  | error => "ERROR"
  | warn => "WARN"
  | info => "INFO"
  | debug => "DEBUG"
  | trace => "TRACE"

/-- Every level, from the most important. -/
def Level.all : List Level := [error, warn, info, debug, trace]

/-- The level of a name, in small letters or capitals. -/
def Level.ofName? (name : String) : Option Level := all.find? (·.name = name.toUpper)

/-- Something that a build tells. -/
inductive Event where
  | gatheringDescriptors
  | sortingStrings
  | sortingDescriptors
  | gatheringObjects
  | gathered (objects mutable readOnly : Nat)
  | skippedReplaced (source : Word)
  | skippedExcluded (source : Word)
  | tableEstimate (advisories : Advisories)
  | objectEstimate (bytes : Nat)
  | totalEstimate (bytes : Nat)
  | refusedBottom (bottom : Nat)
  | refusedTop (top : Nat)
  | reserved (range : AddrRange .buffer)
  | usage (label : String) (estimate used : Nat)
  | copying (region : RegionKind)
  | copiedAll (objects : Nat)
  | copied (source : Word) (target : Addr .buffer) (size : Nat)
  | replaced (former substitute : Word)
  | preparedTable (kind : ObjectKind) (table : Addr .buffer) (entries : Nat)
  | wiring
  | wired (slot : Word) (old new : Word)
  | shifting (used : AddrRange .buffer) (requested : AddrRange .requested)
  | shifted (offset : Nat) (value relocated : Word)
  | pointerCount (pointers : Nat)
  | statsLine (text : String)
  | map (entry : MapEntry)

namespace Event

/-- What the event is about. -/
def category : Event → Category
  | wired .. | shifted .. => .relocation
  | statsLine _ => .stats
  | map _ => .map
  | _ => .progress

/-- How important the event is. -/
def level : Event → Level
  | refusedBottom _ | refusedTop _ => .error
  | skippedReplaced _ | skippedExcluded _ | replaced .. | preparedTable .. | shifting .. => .debug
  | copied .. | wired .. | shifted .. => .trace
  | map entry => if entry.isDump then .trace else .info
  | _ => .info

/-- Name of a region in capitals. -/
def regionCapitals : RegionKind → String
  | .mutable => "RW"
  | .readOnly => "RO"

/-- The lines of an event. -/
def lines : Event → List String
  | gatheringDescriptors => ["Gathering type descriptors and interned strings ... "]
  | sortingStrings => ["Sorting interned strings ... "]
  | sortingDescriptors => ["Sorting type descriptors ... "]
  | gatheringObjects => ["Gathering all archivable objects ... "]
  | gathered objects mutable readOnly =>
    ["Gathered " ++ toString objects ++ " objects (" ++ toString mutable ++ " mutable, " ++
      toString readOnly ++ " read-only)"]
  | skippedReplaced source => ["Skipping " ++ hex source.toNat ++ ", which was regenerated"]
  | skippedExcluded source => ["Skipping excluded type descriptor " ++ hex source.toNat]
  | tableEstimate a =>
    ["estimated table bytes = " ++ toString a.stringTable ++ " + " ++ toString a.dictionary ++
      " + " ++ toString a.other ++ " = " ++ toString a.tableBytes]
  | objectEstimate bytes => ["estimated object bytes = " ++ toString bytes]
  | totalEstimate bytes => ["total estimate bytes = " ++ toString bytes]
  | refusedBottom bottom => ["Requested archive bottom = " ++ hex bottom]
  | refusedTop top => ["Requested archive top    = " ++ hex top]
  | reserved range =>
    ["Reserved output buffer " ++ range.bottom.display ++ " - " ++ range.top.display ++ " (" ++
      toString range.length ++ " bytes)"]
  | usage label estimate used =>
    [label ++ " estimate = " ++ toString estimate ++ " used = " ++ toString used ++ "; diff = " ++
      toString ((estimate : Int) - used) ++ " bytes"]
  | copying region => ["Allocating " ++ regionCapitals region ++ " objects ... "]
  | copiedAll objects => ["done (" ++ toString objects ++ " objects)"]
  | copied source target size =>
    ["Copy: " ++ hex source.toNat ++ " ==> " ++ target.display ++ " " ++ toString size]
  | replaced former substitute =>
    ["Regenerated " ++ hex former.toNat ++ " -> " ++ hex substitute.toNat]
  | preparedTable kind table entries =>
    ["Prepared " ++ kind.name ++ " dispatch table at " ++ table.display ++ " (" ++
      toString entries ++ " entries)"]
  | wiring => ["Relocating embedded pointers in core regions ... "]
  | wired slot old new =>
    ["Ref: [" ++ hex slot.toNat ++ "] -> " ++ hex old.toNat ++ " => " ++ hex new.toNat]
  | shifting used requested =>
    ["Relocating archive from " ++ used.tagged ++ " to " ++ requested.tagged]
  | shifted offset value relocated =>
    ["Final: [" ++ hex offset ++ "] " ++ hex value.toNat ++ " => " ++ hex relocated.toNat]
  | pointerCount pointers => ["Archive has " ++ toString pointers ++ " pointers to relocate"]
  | statsLine text => [text]
  | map entry => entry.lines

/-- What is told when the total `e.total a alignment` is estimated. -/
def ofEstimate (e : SizeEstimate) (a : Advisories) (alignment : Nat) : List Event :=
  [tableEstimate a, objectEstimate e.objectBytes, totalEstimate (e.sum a alignment)]

/-- What is told when usage is checked at `top`. -/
def ofCheck (m : UsageMeter) (top estimate : Nat) (label : String) : Event :=
  usage label estimate (m.used top)

/-- What is told when the statistics are shown. -/
def ofStats (s : Stats) (mutableUsed readOnlyUsed : Nat) : List Event :=
  (s.table mutableUsed readOnlyUsed).map statsLine

end Event

end SnapshotArchive
