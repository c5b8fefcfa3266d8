import SnapshotArchive.Report.Event

/-!
What a reader takes of the events of a build: for each category those up to a level.
-/

namespace SnapshotArchive

/-- The most detailed level taken of each category; none if the category is left out. -/
abbrev Filter := Category → Option Level

/-- A line of text with the category and level of its event. -/
structure Line where
  category : Category
  level : Level
  text : String
  deriving DecidableEq

namespace Filter

/-- Whether an event is taken. -/
def takes (f : Filter) (e : Event) : Bool := (f e.category).any (e.level.rank ≤ ·.rank)

/-- The lines of the events that are taken, in order. -/
def lines (f : Filter) (events : List Event) : List Line :=
  (events.filter f.takes).flatMap fun e => e.lines.map (Line.mk e.category e.level)

end Filter

end SnapshotArchive
