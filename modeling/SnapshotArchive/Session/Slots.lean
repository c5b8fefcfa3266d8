import SnapshotArchive.Session.Basic

/-!
Pointers in data that is put together by hand. They are stored and noted one slot at a time; the last
pass over the archive then shifts them like all others.
-/

namespace SnapshotArchive

namespace SessionM

/-- Notes that `slot` holds a pointer, unless it is null. -/
def markPointer (slot : Addr .buffer) : SessionM Unit := do
  let o ← openOutput "mark_pointer"
  let offset ← ofViolation (o.buffer.slotOffset slot)
  changeOutput (·.mark offset)

/-- Stores the pointer `value` into the buffer in `slot` and notes it. -/
def setPointer (slot value : Addr .buffer) : SessionM Unit := do
  let o ← openOutput "set_and_mark_pointer"
  let offset ← ofViolation (o.buffer.slotOffset slot)
  changeOutput (·.setPointer offset value.word)

/-- Notes that `slot`, which must be null, holds no pointer. -/
def clearPointer (slot : Addr .buffer) : SessionM Unit := do
  let o ← openOutput "clear_pointer"
  let offset ← ofViolation (o.buffer.slotOffset slot)
  setOutput (← ofViolation (o.clear offset))

/-- The word of a pointer to a source object; null without one. -/
def pointerTo (source? : Option Word) : SessionM Word := do
  match source? with
  | none => return 0
  | some source => return (← ofViolation ((← session).catalog.resolve source)).word

/-- Stores a pointer to where `source?` ends up in `slot`; a null pointer is not noted. -/
def writePointer (slot : Addr .buffer) (source? : Option Word) : SessionM Unit := do
  if (← session).stage.before .readOnlyCopied then violate (.outOfOrder "write_pointer_in_buffer")
  let w ← pointerTo source?
  let o ← openOutput "write_pointer_in_buffer"
  let offset ← ofViolation (o.buffer.slotOffset slot)
  if w = 0 then setOutput (← ofViolation ((o.write offset 0).clear offset))
  else changeOutput (·.setPointer offset w)

end SessionM

end SnapshotArchive
