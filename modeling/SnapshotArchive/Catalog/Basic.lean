import SnapshotArchive.Catalog.Entry
import SnapshotArchive.Failure
import Std.Data.TreeMap

/-!
The catalog of source objects: an entry for each source address, and for each output address the
source that was copied there.
-/

namespace SnapshotArchive

/-- Entries by source address, and sources by output address. -/
structure Catalog where
  entries : Std.TreeMap Word SourceEntry
  sources : Std.TreeMap Word Word

namespace Catalog

/-- No objects. -/
def empty : Catalog := ⟨∅, ∅⟩

/-- The number of source addresses with an entry. -/
def size (c : Catalog) : Nat := c.entries.size

/-- The entry of `source`. -/
def get? (c : Catalog) (source : Word) : Option SourceEntry := c.entries[source]?

/-- Makes `e` the entry of `e.source`. -/
def put (c : Catalog) (e : SourceEntry) : Catalog := { c with entries := c.entries.insert e.source e }

/-- Adds `e` unless `e.source` has an entry; answers whether it was added. -/
def add (c : Catalog) (e : SourceEntry) : Catalog × Bool :=
  match c.get? e.source with
  | some _ => (c, false)
  | none => (c.put e, true)

/-- The source that was copied to `output`. -/
def sourceOf? (c : Catalog) (output : Addr .buffer) : Option Word := c.sources[output.word]?

/-- Notes that the object at `source` was copied to `output`. The output address belongs to `source`
    from then on, also if it belonged to another object before and the note is refused. -/
def place (c : Catalog) (source : Word) (output : Addr .buffer) :
    Except Violation Unit × Catalog :=
  match c.get? source with
  | none => (.error (.unresolvedPointer source), c)
  | some e =>
    if !e.isCopied || e.output?.isSome then (.error (.copiedTwice e.kind e.source), c)
    else
      -- entered before the owner is looked at, so a refused note leaves it behind
      let claimed := { c with sources := c.sources.insert output.word source }
      match c.sourceOf? output with
      | some _ => (.error (.duplicateOutput output.word), claimed)
      | none => (.ok (), claimed.put { e with output? := some output })

/-- Lets `former`, which must be new, end up where `substitute` does, which must be settled. -/
def addAlias (c : Catalog) (former substitute : Word) : Except Violation Catalog :=
  match c.get? substitute with
  | none => .error (.substituteNotArchived former substitute)
  | some e =>
    match e.resolution? with
    | none => .error (.substituteNotArchived former substitute)
    | some _ =>
      match c.add (e.standIn former) with
      | (extended, true) => .ok extended
      | (_, false) => .error (.duplicateRegistration former)

/-- Where pointers to `source` end up. -/
def resolve (c : Catalog) (source : Word) : Except Violation Resolution :=
  match (c.get? source).bind SourceEntry.resolution? with
  | some r => .ok r
  | none => .error (.unresolvedPointer source)

/-- Where the copy of `source` is. -/
def outputOf (c : Catalog) (source : Word) : Except Violation (Addr .buffer) :=
  match (c.get? source).bind SourceEntry.output? with
  | some a => .ok a
  | none => .error (.unresolvedPointer source)

theorem get?_put (c : Catalog) (e : SourceEntry) (w : Word) :
    (c.put e).get? w = if e.source = w then some e else c.get? w := by
  unfold put get?
  simp only [Std.TreeMap.getElem?_insert, Std.LawfulEqCmp.compare_eq_iff_eq]

@[simp] theorem get?_empty (w : Word) : empty.get? w = none := by simp [empty, get?]

theorem get?_add (c : Catalog) (e : SourceEntry) (w : Word) :
    (c.add e).1.get? w = if e.source = w ∧ c.get? w = none then some e else c.get? w := by
  unfold add
  split
  · rename_i x h
    by_cases hw : e.source = w
    · subst hw; simp [h]
    · simp [hw]
  · rename_i h
    rw [get?_put]
    by_cases hw : e.source = w
    · subst hw; simp [h]
    · simp [hw]

end Catalog

end SnapshotArchive
