import SnapshotArchive.Graph.Host
import SnapshotArchive.Address.Range
import SnapshotArchive.Words
import SnapshotArchive.Text.Quoted
import Std.Data.TreeSet

/-!
A heap of word-sized cells with typed pointer fields, which can serve as the host of a build. Words lie
one after the other from the base of the heap: first a segment that stands for a mapped dependency
archive, then the objects in the order they were made.
-/

namespace SnapshotArchive

/-- An object: `length` words from word `start` of the heap. -/
structure HeapObject where
  start : Nat
  length : Nat
  kind : ObjectKind
  name? : Option String
  readOnly : Bool
  /-- The words that hold pointers, by index. Such a reference may ask for a region of its own;
      otherwise it asks for the one its target asks for. -/
  fields : Std.TreeMap Nat (Option Bool)

namespace HeapObject

/-- Size in bytes, `length * wordBytes`. -/
def size (o : HeapObject) : Nat := o.length * wordBytes

/-- Makes word `index` a pointer field. -/
def setField (o : HeapObject) (index : Nat) (readOnly? : Option Bool) : HeapObject :=
  { o with fields := o.fields.insert index readOnly? }

/-- Whether every pointer field is a word of the object, `i < length`. -/
def fieldsInside (o : HeapObject) : Bool := o.fields.keys.all (· < o.length)

end HeapObject

/-- A heap. Objects are known by the address of their first word. -/
structure Heap where
  base : Word
  memory : Words
  /-- Words in use, the dependency segment included. -/
  extent : Nat
  segment : Nat
  segmentUsed : Nat
  objects : Std.TreeMap Word HeapObject
  substitutes : Std.TreeMap Word Word
  excluded : Std.TreeSet Word

/-- Operations on a heap; what was changed before a fault stays changed. -/
abbrev HeapM := ExceptT Fault (StateM Heap)

namespace Heap

/-- Kinds whose objects go into the read-only region unless a reference says otherwise. -/
def readOnlyByDefault : ObjectKind → Bool
  | .internedString | .procedureBody => true
  | _ => false

/-- A heap with a dependency segment of `segment` words. -/
def create (base : Word) (segment : Nat) : Heap where
  base := base
  memory := .zero
  extent := segment
  segment := segment
  segmentUsed := 0
  objects := ∅
  substitutes := ∅
  excluded := ∅

/-- The address of word `i`. -/
def addressOf (h : Heap) (i : Nat) : Word := h.base.plus (wordBytes * i)

/-- The object at `a`. -/
def object? (h : Heap) (a : Word) : Option HeapObject := h.objects[a]?

/-- The word `i` words above an address; outside of the heap all words are zero. -/
def wordAt (h : Heap) (a : Word) (i : Nat) : Word :=
  if h.base ≤ a then h.memory.read ((a.toNat - h.base.toNat) / wordBytes + i) else 0

/-- Makes an object of `length` zero words from word `start` on. -/
def register (start length : Nat) (kind : ObjectKind) (name? : Option String) : HeapM Word := do
  let h ← get
  let a := h.addressOf start
  let o : HeapObject :=
    { start, length, kind, name?, readOnly := readOnlyByDefault kind, fields := ∅ }
  set { h with objects := h.objects.insert a o }
  return a

/-- Makes an object of `length` zero words at the end of the heap. -/
def alloc (kind : ObjectKind) (length : Nat) (name? : Option String) : HeapM Word := do
  if length = 0 then throw .emptyObject
  let h ← get
  if addressLimit ≤ h.base.toNat + wordBytes * (h.extent + length) then throw .outOfBounds
  set { h with extent := h.extent + length }
  register h.extent length kind name?

/-- Makes an object of `length` zero words in the dependency segment; none if it has no room. -/
def allocInDependency (kind : ObjectKind) (length : Nat) : HeapM (Option Word) := do
  if length = 0 then throw .emptyObject
  let h ← get
  if h.segmentUsed + length ≤ h.segment then
    set { h with segmentUsed := h.segmentUsed + length }
    some <$> register h.segmentUsed length kind none
  else
    return none

/-- The addresses of the dependency segment; none if it has no words. -/
def dependencyRange? (h : Heap) : Option (AddrRange .mapped) :=
  if h.segment = 0 then none else AddrRange.ofLength? ⟨h.base⟩ (h.segment * wordBytes)

/-- Changes the object at `a` by `f`. -/
def updateObject (a : Word) (f : HeapObject → HeapObject) : HeapM Unit :=
  modify fun h =>
    match h.object? a with
    | some o => { h with objects := h.objects.insert a (f o) }
    | none => h

/-- Stores `w` in word `index` of the object at `a`. -/
def setWord (a : Word) (index : Nat) (w : Word) : HeapM Unit := do
  let h ← get
  match h.object? a with
  | some o =>
    if index < o.length then set { h with memory := h.memory.write (o.start + index) w }
    else throw .outOfBounds
  | none => throw .outOfBounds

/-- Makes word `index` of the object at `a` a pointer field, then stores the target's address, or
    null, there. -/
def setPointer (a : Word) (index : Nat) (target? : Option Word) (readOnly? : Option Bool) :
    HeapM Unit := do
  updateObject a (·.setField index readOnly?)
  setWord a index (target?.getD 0)

/-- Lets references to the object at `a` ask for one of the regions. -/
def setReadOnly (a : Word) (readOnly : Bool) : HeapM Unit := updateObject a ({ · with readOnly })

/-- Notes that `former` was replaced by `replacement`. -/
def substitute (h : Heap) (former replacement : Word) : Heap :=
  { h with substitutes := h.substitutes.insert former replacement }

/-- Leaves `descriptor` out of archives. -/
def exclude (h : Heap) (descriptor : Word) : Heap :=
  { h with excluded := h.excluded.insert descriptor }

/-- The `o.length` words of an object. -/
def words (h : Heap) (o : HeapObject) : List Word :=
  (List.range o.length).map fun i => h.memory.read (o.start + i)

/-- The reference to the object `o` at `a` as a root. -/
def rootEdge (a : Word) (o : HeapObject) : Edge := ⟨none, a, o.kind, o.size, o.readOnly⟩

/-- The reference that word `index` of the object `o` at `a` holds; none if it does not hold the address
    of an object. -/
def fieldEdge? (h : Heap) (a : Word) (o : HeapObject) (index : Nat) (readOnly? : Option Bool) :
    Option Edge :=
  let target := h.memory.read (o.start + index)
  (h.object? target).map fun t =>
    { origin? := some ⟨a, a.plus (wordBytes * index)⟩
      pointee := target
      kind := t.kind
      size := t.size
      readOnly := readOnly?.getD t.readOnly }

/-- The references held by the object at `a`, by ascending field. -/
def edges (h : Heap) (a : Word) : Except Fault (List Edge) :=
  match h.object? a with
  | none => .ok []
  | some o =>
    if o.fieldsInside then .ok (o.fields.toList.filterMap fun (i, r) => h.fieldEdge? a o i r)
    else .error .outOfBounds

/-- Pointer fields of all objects. -/
def fieldCount (h : Heap) : Nat := h.objects.foldl (fun n _ o => n + o.fields.size) 0

/-- The name of the object at `a`. -/
def nameAt? (h : Heap) (a : Word) : Option String := (h.object? a).bind (·.name?)

/-- The heap as the host of a build. -/
def toHost (h : Heap) : Host where
  rootEdge? a := (h.object? a).map (rootEdge a)
  edges := h.edges
  edgeCount := h.fieldCount
  wordAt := h.wordAt
  typeName a := (h.nameAt? a).getD ""
  describe := h.nameAt?
  isExcluded a := h.excluded.contains a
  hasSubstitute a := h.substitutes.contains a
  substitute? a := h.substitutes[a]?

/-- An object in diagnostics: its kind, its address and, in quotes, its name. -/
def display (a : Word) (o : HeapObject) : String :=
  o.kind.name ++ "@" ++ Text.hex a.toNat ++
    match o.name? with
    | none => ""
    | some name => " " ++ Text.quoted name

end Heap

end SnapshotArchive
