import Mathlib.Tactic.Common
import SnapshotArchive.Proofs.Milestones
import SnapshotArchive.Proofs.Patches
import SnapshotArchive.Proofs.Retrying
import SnapshotArchive.Proofs.Spans

/-!
Data that is put together by hand. Pointers are stored, noted and cleared one slot at a time in blocks that
were allocated for it, at any stage and among all other steps. When the final pass succeeds, each word of
these blocks is what was stored there last, shifted if it is a pointer; nothing else in the archive depends
on these calls.
-/

namespace SnapshotArchive

open SessionM

/-- The byte at address `n` lies in the span `b`. -/
def Span.Has (b : Span) (n : Nat) : Prop := b.start ≤ n ∧ n < b.stop

instance (b : Span) (n : Nat) : Decidable (b.Has n) := inferInstanceAs (Decidable (_ ∧ _))

/-- What is stored in a slot: a pointer, or a word that is none. -/
structure SlotValue where
  word : Word
  isPointer : Bool
  deriving DecidableEq

/-- The word and mark `c` are what was stored there last, or blank if nothing was; a pointer is
    noted unless it is null. -/
structure SlotValue.Shows (last? : Option SlotValue) (c : Word × Bool) : Prop where
  word : c.1 = (last?.map SlotValue.word).getD 0
  noted : last?.any (·.isPointer) = true → c.1 ≠ 0 → c.2 = true

/-- The word of a pointer to where a source object ends up; `0` without one. -/
def Session.pointerWord (s : Session) : Option Word → Except Violation Word
  | none => .ok 0
  | some source => (s.catalog.resolve source).map Resolution.word

namespace Call

/-- The slot that a call sets, notes, or clears. -/
def slot? : Call → Option (Addr .buffer)
  | writeWord slot _ | markPointer slot | setPointer slot _ | clearPointer slot | writePointer slot _ =>
    some slot
  | _ => none

/-- What a call `c` stores in its slot. -/
def payload? (c : Call) (s : Session) : Option SlotValue :=
  match c with
  | writeWord _ w => some ⟨w, false⟩
  | setPointer _ value => some ⟨value.word, true⟩
  | writePointer _ source? => (s.pointerWord source?).toOption.map fun w => ⟨w, true⟩
  | _ => none

/-- What a call `c` that is answered stores at the address `n`. -/
def storedAt? (c : Call) (s : Session) (n : Nat) : Option SlotValue :=
  if (c.run.perform s).1.toOption.isSome && c.slot?.any (·.toNat == n) then c.payload? s else none

/-- The call `c` is answered, and it is about the slot at the address `n`. -/
def isAbout (c : Call) (s : Session) (n : Nat) : Bool :=
  (c.run.perform s).1.toOption.isSome && c.slot?.any (·.toNat == n)

/-- What a call `c` that is answered makes of the word in its slot, and of its mark. -/
def remake (c : Call) (s : Session) (cell : Word × Bool) : Word × Bool :=
  match c with
  | writeWord _ w => (w, cell.2)
  | markPointer _ => (cell.1, cell.2 || cell.1 != 0)
  | setPointer _ value => (value.word, cell.2 || value.word != 0)
  | clearPointer _ => (cell.1, cell.2 && cell.1 != 0)
  | writePointer _ source? => (s.pointerWord source?).toOption.elim cell fun w => (w, w != 0)
  | _ => cell

/-- The call is about a pointer in a slot. -/
def handlesPointer : Call → Bool
  | markPointer _ | setPointer .. | clearPointer _ | writePointer .. => true
  | _ => false

end Call

namespace Session

/-- What was stored last at each address after some calls on `s`, if it was `last?` before. -/
def lastStored (s : Session) (last? : Nat → Option SlotValue) : List Call → Nat → Option SlotValue
  | [] => last?
  | c :: calls => (c.after s).lastStored (fun n => (c.storedAt? s n).or (last? n)) calls

/-- Every slot that is set, noted, or cleared by hand lies in one of `blocks` or in a block that was
    allocated before. -/
def KeepsToBlocks (s : Session) (blocks : List Span) : List Call → Prop
  | [] => True
  | c :: calls =>
    (∀ slot ∈ c.slot?, ∃ b ∈ blocks, b.Has slot.toNat) ∧
      (c.after s).KeepsToBlocks (blocks ++ (c.block? s).toList) calls

instance KeepsToBlocks.decidable :
    (s : Session) → (blocks : List Span) → (calls : List Call) → Decidable (s.KeepsToBlocks blocks calls)
  | _, _, [] => .isTrue trivial
  | s, blocks, c :: calls =>
    haveI := KeepsToBlocks.decidable (c.after s) (blocks ++ (c.block? s).toList) calls
    inferInstanceAs (Decidable (_ ∧ _))

end Session

/-- The words of `blocks` show what was stored there `last?`. -/
def Patch.ofBlocks (bottom : Addr .buffer) (blocks : List Span) (last? : Nat → Option SlotValue) : Patch where
  bottom := bottom
  covers i := ∃ b ∈ blocks, b.Has (bottom.toNat + wordBytes * i)
  holds i := SlotValue.Shows (last? (bottom.toNat + wordBytes * i))

/-- The word `i` of the buffer that a `slot` is. -/
theorem Buffer.slotOffset_index {b : Buffer} {slot : Addr .buffer} {n : Nat} (h : b.slotOffset slot = .ok n)
    (i : Nat) : n / wordBytes = i ↔ slot.toNat = b.bottom.toNat + wordBytes * i := by
  obtain ⟨hplace, hdvd, -⟩ := Buffer.slotOffset_eq_ok_iff.1 h
  have hindex : wordBytes * (n / wordBytes) = n := Nat.mul_div_cancel' hdvd
  unfold wordBytes at *
  omega

namespace SessionM

open Session

variable {s : Session} {o : Output} {slot : Addr .buffer} {n : Nat}

/-- The word at `slot` changes from `s` to `s'`, and shows what is stored there. -/
def StoreStep (slot : Addr .buffer) (value? : Option SlotValue) (s s' : Session) : Prop :=
  ∃ o n words pointers, s.output? = some o ∧ o.buffer.slotOffset slot = .ok n ∧
    (∀ i, i ≠ n / wordBytes → (o.withContents words pointers).cell i = o.cell i) ∧
    (∀ last?, SlotValue.Shows last? (o.cell (n / wordBytes)) →
      SlotValue.Shows (value?.or last?) ((o.withContents words pointers).cell (n / wordBytes))) ∧
    s' = { s with output? := some (o.withContents words pointers) }

/-- The word at `slot` changes from `s` to `s'` to what `f` makes of it. -/
def RemakeStep (slot : Addr .buffer) (f : Word × Bool → Word × Bool) (s s' : Session) : Prop :=
  ∃ o n words pointers, s.output? = some o ∧ o.buffer.slotOffset slot = .ok n ∧
    (∀ i, (o.withContents words pointers).cell i = if n / wordBytes = i then f (o.cell i) else o.cell i) ∧
    s' = { s with output? := some (o.withContents words pointers) }

theorem RemakeStep.intro {o' : Output} {f : Word × Bool → Word × Bool} (ho : s.output? = some o)
    (hn : o.buffer.slotOffset slot = .ok n) (hsame : o' = o.withContents o'.buffer.words o'.pointers)
    (hcells : ∀ i, o'.cell i = if n / wordBytes = i then f (o.cell i) else o.cell i) :
    RemakeStep slot f s { s with output? := some o' } := by
  refine ⟨o, n, o'.buffer.words, o'.pointers, ho, hn, ?_⟩
  rw [← hsame]
  exact ⟨hcells, rfl⟩

/-- What `f` makes of a slot shows what is stored there. -/
theorem RemakeStep.store {s' : Session} {f : Word × Bool → Word × Bool} {value? : Option SlotValue}
    (h : RemakeStep slot f s s')
    (hf : ∀ last? cell, SlotValue.Shows last? cell → SlotValue.Shows (value?.or last?) (f cell)) :
    StoreStep slot value? s s' := by
  obtain ⟨o, n, words, pointers, ho, hn, hcells, hs'⟩ := h
  refine ⟨o, n, words, pointers, ho, hn, fun i hi => ?_, fun last? hlast => ?_, hs'⟩
  · rw [hcells, if_neg (Ne.symm hi)]
  · rw [hcells, if_pos rfl]
    exact hf last? _ hlast

/-- The operation `m` makes `f` of a slot, or fails and changes nothing. -/
abbrev Remaking (slot : Addr .buffer) (f : Word × Bool → Word × Bool) (s : Session) (m : SessionM Unit) :
    Prop :=
  Triple (· = s) m (fun _ => RemakeStep slot f s) (fun _ s' => s' = s)

theorem remaking_writeWord (slot : Addr .buffer) (w : Word) :
    Remaking slot (fun cell => (w, cell.2)) s (writeWord slot w) := by
  refine triple_at _ slot fun o n ho hn => ?_
  rintro r rfl
  rw [wp_changeOutput, ho]
  exact .intro ho hn rfl (o.cell_write n w)

theorem remaking_markPointer (slot : Addr .buffer) :
    Remaking slot (fun cell => (cell.1, cell.2 || cell.1 != 0)) s (markPointer slot) := by
  refine triple_at _ slot fun o n ho hn => ?_
  rintro r rfl
  rw [wp_changeOutput, ho]
  refine .intro ho hn ?_ (o.cell_mark n)
  rw [Output.buffer_mark]
  exact Output.mark_eq ..

theorem remaking_setAt (ho : s.output? = some o) (hn : o.buffer.slotOffset slot = .ok n) (w : Word) :
    Remaking slot (fun cell => (w, cell.2 || w != 0)) s (changeOutput (·.setPointer n w)) := by
  rintro r rfl
  rw [wp_changeOutput, ho]
  have hsame := Output.setPointer_eq o n w
  refine .intro ho hn ?_ (o.cell_setPointer n w)
  rw [show (o.setPointer n w).buffer = o.buffer.write n w from congrArg Output.buffer hsame]
  exact hsame

theorem remaking_clearPointer (slot : Addr .buffer) :
    Remaking slot (fun cell => (cell.1, cell.2 && cell.1 != 0)) s (clearPointer slot) := by
  refine triple_at _ slot fun o n ho hn => ?_
  rintro r rfl
  rw [wp_bind, wp_ofViolation]
  cases hc : o.clear n with
  | error v => rfl
  | ok o' =>
    obtain ⟨hzero, hcells⟩ := Output.cell_clear hc
    dsimp only [wp_setOutput]
    refine .intro ho hn ?_ fun i => ?_
    · rw [clear_eq_ok hc]
      rfl
    · rw [hcells]
      split
      · rename_i hi
        rw [← hi, hzero, bne_self_eq_false, Bool.and_false]
      · rfl

/-- The word at `slot` is set to null and its mark cleared. -/
theorem remaking_setNull (ho : s.output? = some o) (hn : o.buffer.slotOffset slot = .ok n) :
    Remaking slot (fun _ => (0, false)) s (ofViolation ((o.write n 0).clear n) >>= setOutput) := by
  rintro r rfl
  rw [wp_bind, wp_ofViolation]
  cases hc : (o.write n 0).clear n with
  | error v => rfl
  | ok o' =>
    obtain ⟨-, hcells⟩ := Output.cell_clear hc
    dsimp only [wp_setOutput]
    refine .intro ho hn ?_ fun i => ?_
    · rw [clear_eq_ok hc]
      rfl
    · rw [hcells, Output.cell_write]
      split <;> rfl

theorem wp_pointerTo {Q : Word → Run → Prop} {E : Failure → Run → Prop} {r : Run} (source? : Option Word) :
    (pointerTo source?).wp Q E r =
      match r.session.pointerWord source? with
      | .ok w => Q w r
      | .error v => E v r := by
  cases source? with
  | none => rfl
  | some source =>
    unfold pointerTo pointerWord
    simp only [wp_bind, wp_session, wp_ofViolation]
    cases r.session.catalog.resolve source <;> rfl

theorem remaking_writePointer (slot : Addr .buffer) (source? : Option Word) :
    Remaking slot (fun cell => (s.pointerWord source?).toOption.elim cell fun w => (w, w != 0)) s
      (writePointer slot source?) := by
  rintro r rfl
  unfold writePointer
  simp only [wp_bind, wp_session]
  split
  · rfl
  rw [wp_bind, wp_pointerTo]
  cases r.session.pointerWord source? with
  | error v => rfl
  | ok w =>
    refine triple_at "write_pointer_in_buffer" slot (f := fun o n =>
      if w = 0 then ofViolation ((o.write n 0).clear n) >>= setOutput
      else changeOutput (·.setPointer n w)) (fun o n ho hn => ?_) r rfl
    change Remaking slot (fun _ => (w, w != 0)) r.session _
    by_cases hw : w = 0
    · subst hw
      rw [if_pos rfl]
      exact remaking_setNull ho hn
    · rw [if_neg hw]
      have hsame : (fun cell : Word × Bool => (w, cell.2 || w != 0)) = fun _ => (w, w != 0) := by
        funext cell
        simp [hw]
      exact hsame ▸ remaking_setAt ho hn w

end SessionM

namespace Call

open Session

variable {c : Call} {s : Session} {slot : Addr .buffer}

theorem remaking_run : ∀ {c : Call}, c.slot? = some slot → Remaking slot (c.remake s) s c.run
  | writeWord _ w, rfl => remaking_writeWord slot w
  | markPointer _, rfl => remaking_markPointer slot
  | setPointer _ value, rfl => triple_at _ slot fun _ _ ho hn => remaking_setAt ho hn value.word
  | clearPointer _, rfl => remaking_clearPointer slot
  | writePointer _ source?, rfl => remaking_writePointer slot source?

/-- A call `c` that is about `slot` makes something of it, or fails and changes nothing. -/
theorem remake_after (hslot : c.slot? = some slot) :
    (c.after s = s ∧ ∀ n, c.isAbout s n = false) ∨
      RemakeStep slot (c.remake s) s (c.after s) ∧ ∀ n, c.isAbout s n = (slot.toNat == n) := by
  unfold after isAbout
  obtain ⟨_, hok, hstep⟩ | ⟨_, herror, hsame⟩ := (remaking_run (s := s) hslot).perform rfl
  · refine .inr ⟨hstep, fun n => ?_⟩
    rw [hok, hslot, Option.any_some]
    rfl
  · refine .inl ⟨hsame, fun n => ?_⟩
    rw [herror]
    rfl

/-- A call `c` that is about `slot` and is answered makes something of it. -/
theorem remake_of_ok {a : Unit} (hslot : c.slot? = some slot) (hok : (c.run.perform s).1 = .ok a) :
    RemakeStep slot (c.remake s) s (c.after s) := by
  obtain ⟨_, -, hstep⟩ | ⟨_, herror, -⟩ := (remaking_run (s := s) hslot).perform rfl
  · exact hstep
  · exact nomatch hok.symm.trans herror

/-- A call `c` that is about no slot makes nothing of the one at `n`. -/
theorem isAbout_eq_false (hslot : c.slot? = none) (n : Nat) : c.isAbout s n = false := by
  unfold isAbout
  rw [hslot, Option.any_none, Bool.and_false]

theorem storedAt?_eq (c : Call) (s : Session) (n : Nat) :
    c.storedAt? s n = if c.isAbout s n then c.payload? s else none := rfl

/-- What a call `c` makes of its slot shows what it stores there, if anything. -/
theorem shows_remake {last? : Option SlotValue} {cell : Word × Bool} (h : SlotValue.Shows last? cell) :
    SlotValue.Shows ((c.payload? s).or last?) (c.remake s cell) := by
  cases c with
  | writeWord _ w => exact ⟨rfl, nofun⟩
  | markPointer _ => exact ⟨h.word, fun _ hw => by simp [remake, show cell.1 ≠ 0 from hw]⟩
  | setPointer _ value => exact ⟨rfl, fun _ hw => by simp_all [remake]⟩
  | clearPointer _ =>
    exact ⟨h.word, fun hlast hw => by simp [remake, h.noted hlast hw, show cell.1 ≠ 0 from hw]⟩
  | writePointer _ source? =>
    unfold payload? remake
    dsimp only
    cases s.pointerWord source? with
    | error v => exact h
    | ok w => exact ⟨rfl, fun _ hw => by simp_all [Except.toOption]⟩
  | _ => exact h

/-- A call `c` that is about `slot` stores something there, or fails and changes nothing. -/
theorem store_after (hslot : c.slot? = some slot) :
    (c.after s = s ∧ ∀ n, c.storedAt? s n = none) ∨
      StoreStep slot (c.payload? s) s (c.after s) ∧
        ∀ n, c.storedAt? s n = if slot.toNat = n then c.payload? s else none := by
  simp only [storedAt?_eq]
  obtain ⟨hsame, hnone⟩ | ⟨hstep, habout⟩ := remake_after (s := s) hslot
  · exact .inl ⟨hsame, fun n => by rw [hnone]; rfl⟩
  · exact .inr ⟨hstep.store fun _ _ => shows_remake, fun n => by rw [habout]; simp only [beq_iff_eq]⟩

/-- A call `c` that is about no slot stores nothing by hand at `n`. -/
theorem storedAt?_eq_none (hslot : c.slot? = none) (n : Nat) : c.storedAt? s n = none := by
  rw [storedAt?_eq, isAbout_eq_false hslot]
  rfl

end Call

namespace Session

variable {s t : Session} {o : Output} {blocks : List Span} {last? : Nat → Option SlotValue}
  {bottom : Addr .buffer}

/-- A field at offset `n` of a copy lies below the top, and outside of `blocks`. -/
theorem HasCopy.field_off {w : Word} {e : SourceEntry} {target : Addr .buffer} {l : CopyList} {base n : Nat}
    (h : s.HasCopy w e target) (hs : s.Sound) (hsized : s.Sized) (hspread : Spread blocks s)
    (ho : s.output? = some o) (hbase : o.buffer.slotOffset target = .ok base)
    (hn : n ∈ l.pointerOffsets e) :
    (¬∃ b ∈ blocks, b.Has (o.buffer.bottom.toNat + wordBytes * ((base + n) / wordBytes))) ∧
      wordBytes * ((base + n) / wordBytes) < o.arena.top := by
  obtain ⟨hndvd, hnsize⟩ := hsized.offset_lt h.1 hn
  obtain ⟨hplace, hbdvd, -⟩ := Buffer.slotOffset_eq_ok_iff.1 hbase
  have htop := h.le_top hs ho
  have hwords : wordBytes * ((base + n) / wordBytes) = base + n :=
    Nat.mul_div_cancel' (Nat.dvd_add hbdvd hndvd)
  rw [hwords]
  refine ⟨?_, by omega⟩
  rintro ⟨b, hb, hlow, hhigh⟩
  have hapart := hspread.apart b hb w e target h
  unfold Span.Apart SourceEntry.span at hapart
  dsimp only at hapart
  omega

/-- The noted fields of the copies lie outside of `blocks`. -/
theorem fieldsOff (hs : s.Sound) (hsized : s.Sized) (hspread : Spread blocks s) (ho : s.output? = some o)
    (hbottom : o.buffer.bottom = bottom) : FieldsOff (.ofBlocks bottom blocks last?) s o := by
  intro kind w hw e target base he htarget hbase n hn
  obtain ⟨x, hx, -, hplain, -⟩ := hs.books.listed kind w (by rw [sources_books]; exact hw)
  obtain rfl : e = x := Option.some_inj.1 (he.symm.trans hx)
  have hcopy : s.HasCopy w e target := ⟨he, hplain, htarget⟩
  exact hbottom ▸ hcopy.field_off hs hsized hspread ho hbase hn

end Session

/-- A new block `b` lies past all that was put together by hand, where the buffer is blank. -/
theorem Output.Alike.withBlock {o o' : Output} {bottom : Addr .buffer} {blocks : List Span}
    {last? : Nat → Option SlotValue} {b : Span} {top : Nat} (h : o.Alike (.ofBlocks bottom blocks last?) o')
    (hblank : ∀ i, top ≤ wordBytes * i → o.cell i = (0, false))
    (hfree : ∀ n, bottom.toNat + top ≤ n → last? n = none) (hlow : bottom.toNat + top ≤ b.start)
    (hhigh : b.stop ≤ bottom.toNat + o.arena.top) :
    o.Alike (.ofBlocks bottom (blocks ++ [b]) last?) o' := by
  refine h.extend rfl (fun i ⟨b', hb', hhas⟩ => ⟨⟨b', List.mem_append_left _ hb', hhas⟩, fun _ hc => hc⟩) ?_
  rintro i ⟨b', hb', hhas⟩ hout
  obtain rfl : b' = b := by
    rcases List.mem_append.1 hb' with hb' | hb'
    · exact absurd ⟨b', hb', hhas⟩ hout
    · exact List.mem_singleton.1 hb'
  obtain ⟨hstart, hstop⟩ := hhas
  refine ⟨by omega, hblank i (by omega), ?_⟩
  change SlotValue.Shows (last? (bottom.toNat + wordBytes * i)) (0, false)
  rw [hfree _ (by omega)]
  exact ⟨rfl, nofun⟩

namespace Call

open Session

variable {s t : Session} {blocks : List Span} {last? : Nat → Option SlotValue} {bottom : Addr .buffer}

theorem block?_eq_some {n : Nat} {a : Addr .buffer} (h : ((SessionM.allocateOther n).perform s).1 = .ok a) :
    (allocateOther n).block? s = some ⟨a.toNat, a.toNat + n⟩ := by
  change ((SessionM.allocateOther n).perform s).1.toOption.map _ = _
  rw [h]
  rfl

theorem block?_eq_none {n : Nat} {f : Failure} (h : ((SessionM.allocateOther n).perform s).1 = .error f) :
    (allocateOther n).block? s = none := by
  change ((SessionM.allocateOther n).perform s).1.toOption.map _ = _
  rw [h]
  rfl

/-- Only an allocation by hand answers a block: another call `c` does not. -/
theorem block?_other {c : Call} (h : ∀ n, c ≠ allocateOther n) : c.block? s = none := by
  cases c with
  | allocateOther n => exact absurd rfl (h n)
  | _ => rfl

theorem block?_of_slot? {c : Call} {slot : Addr .buffer} (h : c.slot? = some slot) : c.block? s = none := by
  refine block?_other ?_
  rintro n rfl
  cases h

/-- A step of a `stage` before the buffer is reserved is refused on both sides. -/
theorem tandem_early {p : Patch} {stage : Stage} {step : String} {k : Unit → SessionM Unit}
    (hearly : stage.rank < 2) :
    Tandem (fun s t => 2 ≤ s.stage.rank ∧ s.Alike p t) (requireStage stage step >>= k)
      (requireStage stage step >>= k) (fun _ _ => Session.Alike p) (Session.Alike p) := by
  refine Tandem.outOfOrder (fun s t h => ⟨?_, h.2.stage⟩) fun _ _ h => h.2
  rintro rfl
  exact absurd h.1 (Nat.not_le.2 hearly)

/-- Calls that are about no slot leave `s` and `t` alike. -/
theorem alike_after (hs : s.Sound) (hsized : s.Sized) (hspread : Spread blocks s)
    (h : s.Alike (.ofBlocks bottom blocks last?) t) : ∀ c : Call, c.slot? = none → c ≠ relocate →
    (∀ n, c ≠ allocateOther n) → (c.after s).Alike (.ofBlocks bottom blocks last?) (c.after t) := by
  obtain ⟨o, o', hat⟩ := id h
  have hrank := (hs.filled o hat.left).stage
  intro c hslot hrelocate hallocate
  cases c with
  | gather roots => exact (tandem_early (by decide)).after ⟨hrank, h⟩
  | reserveBuffer a => exact (tandem_early (by decide)).after ⟨hrank, h⟩
  | allocateOther n => exact absurd rfl (hallocate n)
  | verifyEstimate n label => exact (tandem_verifyEstimate n label).after h
  | copyMutable tables => exact tandem_copyMutable.after h
  | copyReadOnly tables => exact tandem_copyReadOnly.after h
  | recordReplaced former substitute => exact (tandem_recordReplaced former substitute).after h
  | wire =>
    exact (tandem_wire (fieldsOff hs hsized hspread hat.left hat.alike.bottom)).after
      ⟨⟨rfl, fun _ => rfl⟩, o, o', .refl o, hat⟩
  | relocate => exact absurd rfl hrelocate
  | _ => cases hslot

/-- A block of `n` bytes is allocated on both sides or on neither. -/
theorem alike_after_allocateOther (hspread : Spread blocks s)
    (hwritten : ∀ n, last? n ≠ none → ∃ b ∈ blocks, b.Has n)
    (h : s.Alike (.ofBlocks bottom blocks last?) t) (n : Nat) :
    (allocateOther n).block? t = (allocateOther n).block? s ∧
      ((allocateOther n).after s).Alike
        (.ofBlocks bottom (blocks ++ ((allocateOther n).block? s).toList) last?)
        ((allocateOther n).after t) := by
  obtain ⟨o, o', hat⟩ := h
  rw [after_allocateOther, after_allocateOther]
  obtain ⟨x, x', hx, hx', a, ⟨rfl, hplace, htop⟩, hraised⟩ | ⟨_, _, herror, herror', halike⟩ :=
    (tandem_allocateOther n).perform hat
  · have hroom := hat.alike.arena.top_le_length.trans (Nat.le_of_eq hat.alike.length)
    have hstart : x'.toNat = bottom.toNat + o.arena.top := by
      rw [hplace, Buffer.toNat_addrAt hroom, hat.alike.bottom]
      rfl
    rw [block?_eq_some hx, block?_eq_some hx']
    refine ⟨rfl, _, _, hraised.left, hraised.right, ?_, hraised.sized⟩
    refine hraised.alike.withBlock hat.alike.blank (fun m hm => ?_) (Nat.le_of_eq hstart.symm) ?_
    · by_contra hsome
      obtain ⟨b, hb, -, hhigh⟩ := hwritten m hsome
      obtain ⟨o₁, ho₁, hstop⟩ := hspread.below b hb
      obtain rfl : o = o₁ := Option.some_inj.1 (hat.left.symm.trans ho₁)
      rw [hat.alike.bottom] at hstop
      dsimp only [Patch.ofBlocks] at hstop
      omega
    · dsimp only
      omega
  · rw [block?_eq_none herror, block?_eq_none herror']
    exact ⟨rfl, by simpa using halike⟩

/-- A call `c` that is about a slot of a block leaves the session alike to what it was. -/
theorem alike_after_slot {c : Call} {slot : Addr .buffer} (hslot : c.slot? = some slot)
    (hin : ∃ b ∈ blocks, b.Has slot.toNat) (h : s.Alike (.ofBlocks bottom blocks last?) t) :
    (c.after s).Alike (.ofBlocks bottom blocks fun n => (c.storedAt? s n).or (last? n)) t := by
  obtain ⟨hsame, hnone⟩ | ⟨hstep, hstored⟩ := store_after (s := s) hslot
  · simpa only [hsame, hnone, Option.none_or] using h
  obtain ⟨o₁, o', hat⟩ := h
  obtain ⟨o, n, words, pointers, ho, hn, hothers, hshows, hs'⟩ := hstep
  obtain rfl : o = o₁ := Option.some_inj.1 (ho.symm.trans hat.left)
  have hwhere (i : Nat) : slot.toNat = bottom.toNat + wordBytes * i ↔ i = n / wordBytes := by
    rw [eq_comm (a := i), Buffer.slotOffset_index hn, hat.alike.bottom]
    rfl
  rw [hs']
  refine ⟨_, o', rfl, by rw [hat.right], ?_, hat.sized⟩
  refine hat.alike.refillLeft rfl (fun _ => .rfl) (fun i hout => hothers i ?_) fun i hcovered => ?_
  · rintro rfl
    rw [(hwhere (n / wordBytes)).2 rfl] at hin
    exact hout hin
  · change SlotValue.Shows ((c.storedAt? s _).or (last? _)) _
    rw [hstored]
    by_cases hi : i = n / wordBytes
    · rw [if_pos ((hwhere i).2 hi), hi]
      exact hshows _ (hi ▸ hat.alike.held i hcovered)
    · rw [if_neg (mt (hwhere i).1 hi), Option.none_or, hothers i hi]
      exact hat.alike.held i hcovered

/-- A word `w` that is no pointer does not count on the other side. -/
theorem alike_writeWord_right {p : Patch} {slot : Addr .buffer} (w : Word) (h : s.Alike p t)
    (hin : ∀ n, slot.toNat = p.bottom.toNat + n → 8 ∣ n → p.covers (n / wordBytes)) :
    s.Alike p ((writeWord slot w).after t) := by
  obtain ⟨o, o', hat⟩ := h
  have hrun : Triple (· = t) (SessionM.writeWord slot w)
      (fun _ t' => ∃ n, o'.buffer.slotOffset slot = .ok n ∧ t' = { t with output? := some (o'.write n w) })
      (fun _ t' => t' = t) := by
    refine triple_at _ slot fun x n hx hn => ?_
    obtain rfl : x = o' := by
      rw [hat.right] at hx
      exact (Option.some_inj.1 hx).symm
    rintro r rfl
    rw [wp_changeOutput, hx]
    exact ⟨n, hn, rfl⟩
  unfold after
  obtain ⟨_, -, n, hn, ht'⟩ | ⟨_, -, ht'⟩ := hrun.perform rfl
  · obtain ⟨hplace, hdvd, -⟩ := Buffer.slotOffset_eq_ok_iff.1 hn
    rw [hat.alike.bottom_eq, hat.alike.bottom] at hplace
    refine ⟨o, o'.write n w, hat.left, ?_, hat.alike.writeRight w (hin n hplace hdvd), hat.sized⟩
    change ((SessionM.writeWord slot w).perform t).2.session = _
    rw [ht', hat.right]
  · change s.Alike p ((SessionM.writeWord slot w).perform t).2.session
    rw [ht']
    exact ⟨o, o', hat⟩

/-- Nothing but the reservation of a buffer adds one. -/
theorem output_after_bare (hs : s.Sound) (hnone : s.output? = none) {c : Call}
    (hc : ∀ a, c ≠ reserveBuffer a) : (c.after s).output? = none := by
  have hsound := c.sound_after hs
  have hrank := (hs.bare hnone).1
  obtain hrests | ⟨m, hm, hpasses⟩ := c.after_cases hs
  · exact hsound.output_eq_none (by rw [hrests.stage]; exact hrank)
  · have hbefore := hpasses.before
    have hafter := hpasses.after
    refine hsound.output_eq_none (Nat.le_trans (Nat.le_of_eq hafter) ?_)
    cases m with
    | gather => decide
    | reserveBuffer =>
      cases c with
      | reserveBuffer a => exact absurd rfl (hc a)
      | _ => cases hm
    | _ => exact absurd (hbefore ▸ hrank) (by decide)

end Call

end SnapshotArchive
