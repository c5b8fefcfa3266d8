import Mathlib.Tactic.Common
import SnapshotArchive.Proofs.CopyingTwice
import SnapshotArchive.Proofs.Finishing
import SnapshotArchive.Proofs.Tandem

/-!
Two sessions that differ at most in words put together by hand. The operations that fill the rest of the
buffer neither read these words nor change them: run on either session, they answer on both or fail on
both, and in any case the sessions differ in nothing else afterwards.
-/

namespace SnapshotArchive

/-- What word `i` of the buffer holds, and whether it is noted as a pointer. -/
def Output.cell (o : Output) (i : Nat) : Word × Bool := (o.buffer.words.read i, o.pointers.has i)

/-- The words of a buffer that are put together by hand, and what holds of each of them. -/
structure Patch where
  bottom : Addr .buffer
  covers : Nat → Prop
  holds : Nat → Word × Bool → Prop

/-- The outputs `o` and `o'` differ at most in a patch below the top. On one side the patch holds
    what it should; on the other side no word of it is marked. -/
structure Output.Alike (p : Patch) (o o' : Output) : Prop where
  same : o' = o.withContents o'.buffer.words o'.pointers
  bottom : o.buffer.bottom = p.bottom
  arena : o.arena.Sound
  length : o.arena.length = o.buffer.length
  off : ∀ i, ¬p.covers i → o'.cell i = o.cell i
  held : ∀ i, p.covers i → p.holds i (o.cell i)
  plain : ∀ i, p.covers i → o'.pointers.has i = false
  below : ∀ i, p.covers i → wordBytes * i < o.arena.top
  /-- Nothing is put past the top. -/
  blank : ∀ i, o.arena.top ≤ wordBytes * i → o.cell i = (0, false)

namespace Words

/-- What a copy makes of word `i` depends on nothing else that was there. -/
theorem read_copyBytes_congr {m m' : Words} {i : Nat} (h : m'.read i = m.read i) (start : Nat)
    (source : Nat → Word) (bytes : Nat) :
    (m'.copyBytes start source bytes).read i = (m.copyBytes start source bytes).read i := by
  have hfull : (m'.writeAll start source (bytes / wordBytes)).read i =
      (m.writeAll start source (bytes / wordBytes)).read i := by
    rw [read_writeAll, read_writeAll, h]
  unfold copyBytes
  dsimp only
  split
  · exact hfull
  · rw [read_write, read_write]
    split
    · rename_i hi
      rw [hi, hfull]
    · exact hfull

end Words

/-- The words `i` that a copy of `size` bytes at `n` covers lie where it does. -/
theorem Covers.bounds {n size i : Nat} (h : Covers n size i) (hdvd : 8 ∣ n) (hsize : 0 < size) :
    n ≤ wordBytes * i ∧ wordBytes * i < n + size := by
  obtain ⟨j, rfl, hj⟩ := h
  unfold wordBytes at *
  omega

namespace Output

variable {p : Patch} {o o' : Output}

theorem cell_write (o : Output) (n : Nat) (w : Word) (i : Nat) :
    (o.write n w).cell i = if n / wordBytes = i then (w, (o.cell i).2) else o.cell i := by
  have hread : (o.write n w).buffer.words.read i = if n / wordBytes = i then w else o.buffer.words.read i :=
    Words.read_write ..
  unfold cell
  rw [hread]
  split <;> rfl

theorem cell_mark (o : Output) (n i : Nat) :
    (o.mark n).cell i =
      if n / wordBytes = i then ((o.cell i).1, (o.cell i).2 || (o.cell i).1 != 0) else o.cell i := by
  unfold cell
  rw [has_mark, buffer_mark]
  by_cases h : n / wordBytes = i
  · simp [Buffer.read, h]
  · simp [h, Ne.symm h]

theorem cell_setPointer (o : Output) (n : Nat) (w : Word) (i : Nat) :
    (o.setPointer n w).cell i = if n / wordBytes = i then (w, (o.cell i).2 || w != 0) else o.cell i := by
  unfold setPointer
  rw [cell_mark, cell_write]
  split <;> rfl

/-- The slot at `n` is cleared only if it holds zero. -/
theorem cell_clear {n : Nat} (h : o.clear n = .ok o') :
    (o.cell (n / wordBytes)).1 = 0 ∧
      ∀ i, o'.cell i = if n / wordBytes = i then (0, false) else o.cell i := by
  unfold Output.clear at h
  split at h <;> cases h
  rename_i hzero
  have hzero : o.buffer.words.read (n / wordBytes) = 0 := hzero
  refine ⟨hzero, fun i => ?_⟩
  have hmarks := o.pointers.has_erase (n / wordBytes) i
  unfold Output.cell
  dsimp only
  rw [hmarks]
  by_cases hi : n / wordBytes = i
  · subst hi
    simp [hzero]
  · simp [hi, Ne.symm hi]

namespace Alike

theorem arena_eq (h : o.Alike p o') : o'.arena = o.arena := by
  rw [h.same]
  rfl

theorem meter_eq (h : o.Alike p o') : o'.meter = o.meter := by
  rw [h.same]
  rfl

theorem advisories_eq (h : o.Alike p o') : o'.advisories = o.advisories := by
  rw [h.same]
  rfl

theorem bottom_eq (h : o.Alike p o') : o'.buffer.bottom = o.buffer.bottom := by
  rw [h.same]
  rfl

theorem requested_eq (h : o.Alike p o') : o'.requestedBottom = o.requestedBottom := by
  rw [h.same]
  rfl

theorem length_eq (h : o.Alike p o') : o'.buffer.length = o.buffer.length := by
  rw [h.same]
  rfl

/-- Outside of the patch word `i` is the same. -/
theorem read_off (h : o.Alike p o') {i : Nat} (hi : ¬p.covers i) :
    o'.buffer.words.read i = o.buffer.words.read i := congrArg Prod.fst (h.off i hi)

/-- Outside of the patch the mark of word `i` is the same. -/
theorem has_off (h : o.Alike p o') {i : Nat} (hi : ¬p.covers i) : o'.pointers.has i = o.pointers.has i :=
  congrArg Prod.snd (h.off i hi)

/-- Slots are at the same offsets on both sides. -/
theorem slotOffset_eq (h : o.Alike p o') (slot : Addr .buffer) :
    o'.buffer.slotOffset slot = o.buffer.slotOffset slot :=
  Buffer.slotOffset_congr h.bottom_eq h.length_eq

theorem addrAt_eq (h : o.Alike p o') (n : Nat) : o'.buffer.addrAt n = o.buffer.addrAt n := by
  unfold Buffer.addrAt
  rw [h.bottom_eq]

/-- More may be allocated: `o` gets the arena `a`. -/
theorem raise (h : o.Alike p o') {a : Arena} (ha : a.Sound) (hlength : a.length = o.arena.length)
    (htop : o.arena.top ≤ a.top) : Alike p { o with arena := a } { o' with arena := a } where
  same := by
    rw [h.same]
    rfl
  bottom := h.bottom
  arena := ha
  length := hlength.trans h.length
  off := h.off
  held := h.held
  plain := h.plain
  below i hi := (h.below i hi).trans_le htop
  blank i hi := h.blank i (htop.trans hi)

/-- The `n` bytes that are allocated are taken at the top. -/
theorem allocate (h : o.Alike p o') {n k : Nat} {a : Arena} (ha : o.arena.allocate n = .ok (k, a)) :
    (k = o.arena.top ∧ o.arena.top + n ≤ a.top) ∧ Alike p { o with arena := a } { o' with arena := a } := by
  obtain ⟨hplace, hle, hhigh, hdvd, rfl⟩ := Arena.allocate_eq_ok h.arena ha
  have htop := Arena.top_advance o.arena (o.arena.top + allocatedBytes n)
  refine ⟨⟨hplace, by omega⟩, h.raise (h.arena.advance (Nat.le_add_right ..) hhigh hdvd)
    (Arena.length_advance ..) (by omega)⟩

/-- The meters do not count. -/
theorem recount (h : o.Alike p o') (meter : UsageMeter) :
    Alike p { o with meter := meter } { o' with meter := meter } :=
  { h with
    same := by
      rw [h.same]
      rfl }

/-- Both sides are filled alike, below the top and outside of the patch `p`. -/
theorem refill (h : o.Alike p o') (words words' : Words) (pointers pointers' : Ledger)
    (hkept : ∀ i, p.covers i ∨ o.arena.top ≤ wordBytes * i →
      (o.withContents words pointers).cell i = o.cell i)
    (hplain : ∀ i, p.covers i → pointers'.has i = false)
    (hoff : ∀ i, ¬p.covers i →
      (o'.withContents words' pointers').cell i = (o.withContents words pointers).cell i) :
    Alike p (o.withContents words pointers) (o'.withContents words' pointers') where
  same := by
    rw [h.same]
    rfl
  bottom := h.bottom
  arena := h.arena
  length := h.length
  off := hoff
  held i hi := (hkept i (.inl hi)).symm ▸ h.held i hi
  plain := hplain
  below := h.below
  blank i hi := (hkept i (.inr hi)).trans (h.blank i hi)

/-- The words of the patch `p` change on the left. -/
theorem refillLeft (h : o.Alike p o') {p' : Patch} {words : Words} {pointers : Ledger}
    (hbottom : p'.bottom = p.bottom) (hcovers : ∀ i, p'.covers i ↔ p.covers i)
    (hoff : ∀ i, ¬p.covers i → (o.withContents words pointers).cell i = o.cell i)
    (hheld : ∀ i, p.covers i → p'.holds i ((o.withContents words pointers).cell i)) :
    (o.withContents words pointers).Alike p' o' where
  same := h.same
  bottom := h.bottom.trans hbottom.symm
  arena := h.arena
  length := h.length
  off i hi := by
    have hout := mt (hcovers i).2 hi
    exact (h.off i hout).trans (hoff i hout).symm
  held i hi := hheld i ((hcovers i).1 hi)
  plain i hi := h.plain i ((hcovers i).1 hi)
  below i hi := h.below i ((hcovers i).1 hi)
  blank i hi := (hoff i fun hcovered => Nat.not_le.2 (h.below i hcovered) hi).trans (h.blank i hi)

/-- The words of the patch `p` change on the right. -/
theorem writeRight (h : o.Alike p o') {n : Nat} (w : Word) (hn : p.covers (n / wordBytes)) :
    o.Alike p (o'.write n w) :=
  { h with
    same := by
      rw [h.same]
      rfl
    off := fun i hi => by
      rw [cell_write, if_neg, h.off i hi]
      rintro rfl
      exact hi hn }

/-- The patch grows to `p'` by words below the top where nothing was put yet. -/
theorem extend (h : o.Alike p o') {p' : Patch} (hbottom : p'.bottom = p.bottom)
    (hold : ∀ i, p.covers i → p'.covers i ∧ ∀ c, p.holds i c → p'.holds i c)
    (hnew : ∀ i, p'.covers i → ¬p.covers i →
      wordBytes * i < o.arena.top ∧ o.cell i = (0, false) ∧ p'.holds i (0, false)) : o.Alike p' o' where
  same := h.same
  bottom := h.bottom.trans hbottom.symm
  arena := h.arena
  length := h.length
  off i hi := h.off i fun hcovered => hi (hold i hcovered).1
  held i hi := by
    by_cases hcovered : p.covers i
    · exact (hold i hcovered).2 _ (h.held i hcovered)
    · obtain ⟨-, hcell, hholds⟩ := hnew i hi hcovered
      rw [hcell]
      exact hholds
  plain i hi := by
    by_cases hcovered : p.covers i
    · exact h.plain i hcovered
    · obtain ⟨-, hcell, -⟩ := hnew i hi hcovered
      exact congrArg Prod.snd ((h.off i hcovered).trans hcell)
  below i hi := by
    by_cases hcovered : p.covers i
    · exact h.below i hcovered
    · exact (hnew i hi hcovered).1
  blank := h.blank

/-- The `size` bytes of an object are copied to the same place `n`. -/
theorem copyIn (h : o.Alike p o') {n size : Nat} (source : Nat → Word) (hdvd : 8 ∣ n) (hsize : 0 < size)
    (hlow : ∀ i, p.covers i → wordBytes * i < n) (hhigh : n + size ≤ o.arena.top) :
    Alike p { o with buffer := o.buffer.copyIn n source size }
      { o' with buffer := o'.buffer.copyIn n source size } := by
  refine h.refill (o.buffer.words.copyBytes (n / wordBytes) source size)
    (o'.buffer.words.copyBytes (n / wordBytes) source size) o.pointers o'.pointers (fun i hi => ?_) h.plain
    fun i hi => ?_
  · have hout : ¬Covers n size i := fun hcovers => by
      have := hcovers.bounds hdvd hsize
      rcases hi with hi | hi
      · have := hlow i hi
        omega
      · omega
    exact congrArg (·, o.pointers.has i) (Words.read_copyBytes_of_not_covers source hout)
  · exact Prod.ext (Words.read_copyBytes_congr (h.read_off hi) ..) (h.has_off hi)

/-- The same pointer `w` is stored in the same slot. -/
theorem setPointer (h : o.Alike p o') {n : Nat} (w : Word) (hoff : ¬p.covers (n / wordBytes))
    (htop : wordBytes * (n / wordBytes) < o.arena.top) :
    (o.setPointer n w).Alike p (o'.setPointer n w) := by
  have hleft := setPointer_eq o n w
  have hright := setPointer_eq o' n w
  have halike := h.refill (o.buffer.words.write (n / wordBytes) w)
    (o'.buffer.words.write (n / wordBytes) w) (o.setPointer n w).pointers (o'.setPointer n w).pointers
    (fun i hi => ?_) (fun i hi => ?_) fun i hi => ?_
  · rw [hleft, hright]
    exact halike
  · change Output.cell { o with buffer := o.buffer.write n w, pointers := (o.setPointer n w).pointers } i = _
    rw [← hleft, cell_setPointer, if_neg]
    rintro rfl
    exact hi.elim hoff (Nat.not_le.2 htop)
  · rw [has_setPointer, h.plain i hi, Bool.false_or, decide_eq_false, Bool.false_and]
    rintro rfl
    exact hoff hi
  · change Output.cell { o' with buffer := o'.buffer.write n w, pointers := (o'.setPointer n w).pointers } i =
      Output.cell { o with buffer := o.buffer.write n w, pointers := (o.setPointer n w).pointers } i
    rw [← hleft, ← hright, cell_setPointer, cell_setPointer, h.off i hi]

end Alike

end Output

namespace Session

/-- The sessions `s` and `t` differ in nothing but their outputs `o` and `o'`, and these are
    alike. -/
structure AlikeAt (p : Patch) (o o' : Output) (s t : Session) : Prop where
  left : s.output? = some o
  right : t = { s with output? := some o' }
  alike : o.Alike p o'
  sized : ∀ w e, s.catalog.get? w = some e → 0 < e.size

/-- The sessions `s` and `t` differ at most in a patch of their buffers. -/
def Alike (p : Patch) (s t : Session) : Prop := ∃ o o', AlikeAt p o o' s t

namespace Alike

variable {p : Patch} {s t : Session}

theorem stage (h : Alike p s t) : t.stage = s.stage := by
  obtain ⟨_, _, -, rfl, -⟩ := h
  rfl

theorem copyList (h : Alike p s t) (kind : RegionKind) : t.copyList kind = s.copyList kind := by
  obtain ⟨_, _, -, rfl, -⟩ := h
  cases kind <;> rfl

end Alike

end Session

namespace SessionM

open Session

variable {p : Patch} {o o' : Output} {tables : TableProvider} {e : SourceEntry}

theorem tandem_openOutput (step : String) :
    Tandem (AlikeAt p o o') (openOutput step) (openOutput step)
      (fun x x' s t => (x = o ∧ x' = o' ∧ o.Alike p o') ∧ AlikeAt p o o' s t) (Alike p) := by
  unfold openOutput
  refine Tandem.read fun s t ⟨hleft, hright, halike, _⟩ => ?_
  subst hright
  rw [hleft]
  dsimp only
  split
  · exact Tandem.pure fun _ _ h => ⟨⟨rfl, rfl, halike⟩, h.2⟩
  · exact Tandem.throw _ _ fun _ _ h => ⟨o, o', h.2⟩

theorem tandem_output (step : String) :
    Tandem (AlikeAt p o o') (output step) (output step)
      (fun x x' s t => (x = o ∧ x' = o' ∧ o.Alike p o') ∧ AlikeAt p o o' s t) (Alike p) := by
  unfold output
  refine Tandem.read fun s t ⟨hleft, hright, halike, _⟩ => ?_
  subst hright
  rw [hleft]
  exact Tandem.pure fun _ _ h => ⟨⟨rfl, rfl, halike⟩, h.2⟩

theorem tandem_changeOutput (f : Output → Output) {F : Session → Session → Prop}
    (h : (f o).Alike p (f o')) :
    Tandem (AlikeAt p o o') (changeOutput f) (changeOutput f) (fun _ _ => AlikeAt p (f o) (f o')) F := by
  refine Tandem.update fun s t hst => ?_
  obtain ⟨hleft, rfl, -, hsized⟩ := hst
  exact ⟨congrArg (Option.map f) hleft, by rw [hleft]; rfl, h, hsized⟩

theorem tandem_allocateCopy (n : Nat) :
    Tandem (AlikeAt p o o') (allocateCopy n) (allocateCopy n)
      (fun k k' s t => ∃ a : Arena, (k' = k ∧ k = o.arena.top ∧ o.arena.top + n ≤ a.top) ∧
        AlikeAt p { o with arena := a } { o' with arena := a } s t) (Alike p) := by
  unfold allocateCopy
  refine (tandem_openOutput _).bind fun x x' => Tandem.assume ?_
  rintro ⟨rfl, rfl, halike⟩
  rw [halike.arena_eq]
  refine (Tandem.ofBuild _ fun _ _ h => ⟨x, x', h⟩).bind fun q q' => Tandem.assume ?_
  rintro ⟨rfl, hallocate⟩
  obtain ⟨hroom, hraised⟩ := halike.allocate hallocate
  exact (tandem_changeOutput ({ · with arena := q'.2 }) hraised).bind fun _ _ => Tandem.pure fun s t h => ⟨q'.2, ⟨rfl, hroom⟩, h⟩

theorem tandem_copyWords {n : Nat} (source : Word) (size : Nat) (hdvd : 8 ∣ n) (hsize : 0 < size)
    (hlow : ∀ i, p.covers i → wordBytes * i < n) (hhigh : n + size ≤ o.arena.top) :
    Tandem (AlikeAt p o o') (copyWords n source size) (copyWords n source size)
      (fun _ _ s t => ∃ b b' : Buffer, (b.bottom = o.buffer.bottom ∧ b.length = o.buffer.length) ∧
        AlikeAt p { o with buffer := b } { o' with buffer := b' } s t) (Alike p) := by
  unfold copyWords
  refine Tandem.read fun s t ⟨_, hright, halike, _⟩ => ?_
  subst hright
  let fill (x : Output) : Output := { x with buffer := x.buffer.copyIn n (s.host.wordAt source) size }
  have hfill : (fill o).Alike p (fill o') := halike.copyIn (s.host.wordAt source) hdvd hsize hlow hhigh
  exact (tandem_changeOutput fill hfill).conseq (fun _ _ h => h.2)
    (fun _ _ _ _ h => ⟨(fill o).buffer, (fill o').buffer, ⟨rfl, rfl⟩, h⟩) fun _ _ h => h

theorem tandem_installTable {target : Addr .buffer} (table : Addr .buffer)
    (hslot : ∀ n, o.buffer.slotOffset target = .ok n → ¬p.covers (n / wordBytes) ∧
      wordBytes * (n / wordBytes) < o.arena.top) :
    Tandem (AlikeAt p o o') (installTable target table) (installTable target table)
      (fun _ _ => Alike p) (Alike p) := by
  unfold installTable
  refine (tandem_openOutput _).bind fun x x' => Tandem.assume ?_
  rintro ⟨rfl, rfl, halike⟩
  rw [halike.slotOffset_eq, halike.slotOffset_eq]
  refine (Tandem.ofViolation _ fun _ _ h => ⟨x, x', h⟩).bind fun n n' => Tandem.assume ?_
  rintro ⟨rfl, hn⟩
  refine (Tandem.ofViolation _ fun _ _ h => ⟨x, x', h⟩).bind fun _ _ => Tandem.assume fun _ => ?_
  obtain ⟨hoff, htop⟩ := hslot n' hn
  exact (tandem_changeOutput (·.setPointer n' table.word)
    (halike.setPointer table.word hoff htop)).conseq (fun _ _ h => h) (fun _ _ _ _ h => ⟨_, _, h⟩)
    fun _ _ h => h

/-- Noting the place `target` changes no size. -/
theorem size_place {c : Catalog} {source w : Word} {target : Addr .buffer} {e' : SourceEntry}
    (h : (c.place source target).2.get? w = some e') : ∃ v e, c.get? v = some e ∧ e'.size = e.size := by
  rcases hplace : c.place source target with ⟨v | ⟨⟩, c'⟩ <;> rw [hplace] at h
  · exact ⟨w, e', (place_error hplace w).symm.trans h, rfl⟩
  · obtain ⟨e, he, -, -, hget⟩ := place_eq_ok hplace
    rw [hget] at h
    split at h
    · cases h
      exact ⟨source, e, he, rfl⟩
    · exact ⟨w, e', h, rfl⟩

theorem tandem_placeCopy (source : Word) (target : Addr .buffer) :
    Tandem (AlikeAt p o o') (placeCopy source target) (placeCopy source target)
      (fun _ _ => AlikeAt p o o') (Alike p) := by
  unfold placeCopy
  refine Tandem.read fun s t ⟨hleft, hright, halike, hsized⟩ => ?_
  subst hright
  have hsizes : ∀ w e, (s.catalog.place source target).2.get? w = some e → 0 < e.size := by
    intro w e he
    obtain ⟨v, x, hx, hsize⟩ := size_place he
    rw [hsize]
    exact hsized v x hx
  dsimp only
  revert hsizes
  rcases s.catalog.place source target with ⟨outcome, c⟩
  intro hsizes
  refine (Tandem.update (Q := fun _ _ => AlikeAt p o o') ?_).bind fun _ _ =>
    (Tandem.ofViolation outcome fun _ _ h => ⟨o, o', h⟩).conseq (fun _ _ h => h)
      (fun _ _ _ _ h => h.2) fun _ _ h => h
  rintro _ _ ⟨⟨rfl, rfl⟩, -⟩
  exact ⟨hleft, rfl, halike, hsizes⟩

/-- The last part of a copy to `target`, after its words are put in place. -/
theorem tandem_finishCopy (source : Word) (target : Addr .buffer) (event : Event)
    (count count' : Output → Stats → Stats) (hcount : ∀ o o', o.Alike p o' → count' o' = count o) :
    Tandem (Alike p) (do
      placeCopy source target
      tell event
      let after ← openOutput "make_shallow_copy"
      update fun s => { s with stats := count after s.stats }) (do
      placeCopy source target
      tell event
      let after ← openOutput "make_shallow_copy"
      update fun s => { s with stats := count' after s.stats }) (fun _ _ => Alike p) (Alike p) := by
  refine Tandem.pick fun o => Tandem.pick fun o' => (tandem_placeCopy _ _).bind fun _ _ =>
    (Tandem.tell _ _).bind fun _ _ => (tandem_openOutput _).bind fun x x' => Tandem.assume ?_
  rintro ⟨rfl, rfl, halike⟩
  refine Tandem.update fun s t h => ⟨x, x', h.left, ?_, h.alike, h.sized⟩
  rw [h.right, hcount x x' halike]

/-- A copy of `e` is put above the patch. -/
theorem tandem_copyEntry (he : 0 < e.size) :
    Tandem (Alike p) (copyEntry tables e) (copyEntry tables e) (fun _ _ => Alike p) (Alike p) := by
  simp only [copyEntry]
  refine Tandem.pick fun o => Tandem.pick fun o' => (tandem_openOutput _).bind fun x x' => Tandem.assume ?_
  rintro ⟨rfl, rfl, hbefore⟩
  have hrecord (n : Nat) : Tandem (AlikeAt p x x') (allocateCopy n) (allocateCopy n) (fun _ _ => Alike p)
      (Alike p) := by
    refine (tandem_allocateCopy n).conseq (fun _ _ h => h) (fun _ _ _ _ h => ?_) fun _ _ h => h
    obtain ⟨_, _, h⟩ := h
    exact ⟨_, _, h⟩
  refine Tandem.maybe (R := Alike p) (fun s t h => ⟨x, x', h⟩) (hrecord _) ?_
  refine Tandem.pick fun o => Tandem.pick fun o' => Tandem.given (fun _ _ h => h.alike) fun halike => ?_
  refine (tandem_allocateCopy _).bind fun k k' => Tandem.pick fun a => Tandem.assume ?_
  rintro ⟨rfl, rfl, htop⟩
  refine (tandem_copyWords e.source e.size halike.arena.dvd_top he halike.below htop).bind fun _ _ =>
    Tandem.pick fun b => Tandem.pick fun b' => Tandem.assume ?_
  rintro ⟨hbottom, hlength⟩
  have htarget : x.buffer.addrAt o.arena.top = b.addrAt o.arena.top := by
    unfold Buffer.addrAt
    rw [hbottom, hbefore.bottom, halike.bottom]
  rw [hbefore.addrAt_eq]
  have hfinish := tandem_finishCopy (p := p) e.source (x.buffer.addrAt o.arena.top)
    (.copied e.source (x.buffer.addrAt o.arena.top) e.size)
    (fun o stats => stats.record e.kind (o.arena.top - x.arena.top) (.ofReadOnly e.readOnly))
    (fun o stats => stats.record e.kind (o.arena.top - x'.arena.top) (.ofReadOnly e.readOnly))
    fun o o' h => by rw [h.arena_eq, hbefore.arena_eq]
  cases tables e.kind (x.buffer.addrAt o.arena.top) with
  | none => exact hfinish.before fun _ _ h => ⟨_, _, h⟩
  | some table =>
    refine (tandem_installTable table fun n hn => ?_).bind fun _ _ => hfinish
    -- the table goes to the first word of the copy
    have hroom := halike.arena.top_le_length
    have hplace := (Buffer.slotOffset_eq_ok_iff.1 hn).1
    rw [htarget, Buffer.toNat_addrAt (by rw [hlength, ← halike.length]; exact hroom)] at hplace
    obtain rfl : o.arena.top = n := by
      dsimp only at hplace
      omega
    have hwords : wordBytes * (o.arena.top / wordBytes) = o.arena.top :=
      Nat.mul_div_cancel' halike.arena.dvd_top
    refine ⟨fun hcovers => ?_, ?_⟩
    · have hbelow := halike.below _ hcovers
      omega
    · dsimp only
      omega

theorem tandem_copyObject (source : Word) :
    Tandem (Alike p) (copyObject tables source) (copyObject tables source) (fun _ _ => Alike p) (Alike p) := by
  unfold copyObject
  refine Tandem.read fun s t h => ?_
  obtain ⟨o, o', -, rfl, -, hsized⟩ := h
  dsimp only
  cases he : s.catalog.get? source with
  | none => exact Tandem.throw _ _ fun _ _ h => h.2
  | some e => exact (tandem_copyEntry (hsized source e he)).before fun _ _ h => h.2

theorem tandem_copyRegion (kind : RegionKind) :
    Tandem (Alike p) (copyRegion kind tables) (copyRegion kind tables) (fun _ _ => Alike p) (Alike p) := by
  unfold copyRegion
  refine Tandem.read fun s t h => ?_
  rw [h.copyList]
  exact (Tandem.forM fun source _ => tandem_copyObject source).bind (fun _ _ => Tandem.tell _ _) |>.before
    fun _ _ h => h.2

theorem tandem_enter (stage : Stage) {F : Session → Session → Prop} :
    Tandem (Alike p) (enter stage) (enter stage) (fun _ _ => Alike p) F := by
  refine Tandem.update fun s t h => ?_
  obtain ⟨o, o', hleft, rfl, halike, hsized⟩ := h
  exact ⟨o, o', hleft, rfl, halike, hsized⟩

theorem tandem_copyMutable :
    Tandem (Alike p) (copyMutable tables) (copyMutable tables) (fun _ _ => Alike p) (Alike p) := by
  unfold copyMutable
  exact (Tandem.requireStage _ _ (fun _ _ => Session.Alike.stage) fun _ _ h => h).bind fun _ _ =>
    (Tandem.tell _ _).bind fun _ _ => (tandem_copyRegion _).bind fun _ _ => tandem_enter _

theorem tandem_switchRegion :
    Tandem (Alike p) switchRegion switchRegion (fun _ _ => Alike p) (Alike p) := by
  unfold switchRegion
  refine Tandem.pick fun o => Tandem.pick fun o' => (tandem_openOutput _).bind fun x x' => Tandem.assume ?_
  rintro ⟨rfl, rfl, halike⟩
  rw [halike.arena_eq, halike.meter_eq]
  refine (Tandem.ofViolation _ fun _ _ h => ⟨x, x', h⟩).bind fun arena arena' => Tandem.assume ?_
  rintro ⟨rfl, hstart⟩
  obtain ⟨hc, hc', hsound, hlength, -, htop, -⟩ := Arena.startReadOnly_eq_ok halike.arena hstart
  have hraised := halike.raise hsound hlength <| by
    refine Nat.le_trans ?_ (hsound.region_top_le hc' .mutable)
    unfold Arena.top Arena.currentRegion Arena.region
    rw [hc]
    exact htop
  refine Tandem.update fun s t h => ⟨_, _, rfl, ?_, hraised.recount _, h.sized⟩
  rw [h.right]

theorem tandem_verifyEstimate (estimate : Nat) (label : String) :
    Tandem (Alike p) (verifyEstimate estimate label) (verifyEstimate estimate label)
      (fun _ _ => Alike p) (Alike p) := by
  unfold verifyEstimate
  refine Tandem.pick fun o => Tandem.pick fun o' => (tandem_openOutput _).bind fun x x' => Tandem.assume ?_
  rintro ⟨rfl, rfl, halike⟩
  rw [halike.arena_eq, halike.meter_eq]
  refine (Tandem.tell _ _).bind fun _ _ => (Tandem.ofViolation _ fun _ _ h => ⟨x, x', h⟩).bind
    fun meter meter' => Tandem.assume ?_
  rintro ⟨rfl, -⟩
  exact (tandem_changeOutput ({ · with meter := meter' })
    (halike.recount meter')).conseq (fun _ _ h => h) (fun _ _ _ _ h => ⟨_, _, h⟩) fun _ _ h => h

/-- A new entry for `former` is as large as that of `substitute`. -/
theorem size_alias {c c' : Catalog} {former substitute w : Word} {e' : SourceEntry}
    (h : c.addAlias former substitute = .ok c') (he : c'.get? w = some e') :
    ∃ v e, c.get? v = some e ∧ e'.size = e.size := by
  rcases c.addAlias_cases former substitute with
    ⟨-, hadd⟩ | ⟨e, outcome, hsub, -, ⟨-, hadd⟩ | ⟨-, hadd⟩⟩ <;> cases hadd.symm.trans h
  rw [Catalog.get?_put] at he
  split at he
  · cases he
    exact ⟨substitute, e, hsub, rfl⟩
  · exact ⟨w, e', he, rfl⟩

/-- A new entry for `former` is made on both sides or on neither. -/
theorem Alike.withAlias {s t : Session} {c : Catalog} {former substitute : Word} (h : Alike p s t)
    (hadd : s.catalog.addAlias former substitute = .ok c) :
    Alike p { s with catalog := c } { t with catalog := c } := by
  obtain ⟨o, o', hleft, rfl, halike, hsized⟩ := h
  refine ⟨o, o', hleft, rfl, halike, fun w e he => ?_⟩
  obtain ⟨v, x, hx, hsize⟩ := size_alias hadd he
  rw [hsize]
  exact hsized v x hx

theorem tandem_resolveReplaced (former : Word) :
    Tandem (Alike p) (resolveReplaced former) (resolveReplaced former) (fun _ _ => Alike p) (Alike p) := by
  unfold resolveReplaced
  refine Tandem.read fun s t h => ?_
  obtain ⟨o, o', -, rfl, -, -⟩ := h
  dsimp only
  cases s.host.substitute? former with
  | none => exact Tandem.throw _ _ fun _ _ h => h.2
  | some substitute =>
    refine (Tandem.ofViolation _ fun _ _ h => h.2).bind fun c c' => Tandem.assume ?_
    rintro ⟨rfl, hadd⟩
    refine (Tandem.update (Q := fun _ _ => Alike p) ?_).bind fun _ _ => Tandem.tell _ _
    rintro _ _ ⟨⟨rfl, -⟩, h⟩
    exact Alike.withAlias h hadd

theorem tandem_recordReplaced (former substitute : Word) :
    Tandem (Alike p) (recordReplaced former substitute) (recordReplaced former substitute)
      (fun _ _ => Alike p) (Alike p) := by
  simp only [recordReplaced]
  refine Tandem.read fun s t h => ?_
  obtain ⟨o, o', -, rfl, -, -⟩ := h
  dsimp only
  split
  · exact Tandem.violate _ _ fun _ _ h => h.2
  · refine (Tandem.ofViolation _ fun _ _ h => h.2).bind fun c c' => Tandem.assume ?_
    rintro ⟨rfl, hadd⟩
    refine Tandem.update ?_
    rintro _ _ ⟨⟨rfl, -⟩, h⟩
    exact Alike.withAlias h hadd

theorem tandem_copyReadOnly :
    Tandem (Alike p) (copyReadOnly tables) (copyReadOnly tables) (fun _ _ => Alike p) (Alike p) := by
  unfold copyReadOnly
  refine (Tandem.requireStage _ _ (fun _ _ => Session.Alike.stage) fun _ _ h => h).bind fun _ _ =>
    (Tandem.tell _ _).bind fun _ _ => tandem_switchRegion.bind fun _ _ => (tandem_copyRegion _).bind fun _ _ =>
    Tandem.read fun s t h => ?_
  have hreplaced : t.replaced = s.replaced := by
    obtain ⟨_, _, -, rfl, -⟩ := h
    rfl
  rw [hreplaced]
  refine (Tandem.forM fun former _ => tandem_resolveReplaced former).bind (fun _ _ => ?_) |>.before
    fun _ _ h => h.2
  refine Tandem.pick fun o => Tandem.pick fun o' => (tandem_output _).bind fun x x' => Tandem.assume ?_
  rintro ⟨rfl, rfl, halike⟩
  refine Tandem.read fun s t h => ?_
  rw [h.right, halike.advisories_eq]
  exact (tandem_verifyEstimate _ _).bind (fun _ _ => tandem_enter _) |>.before fun _ _ h => ⟨x, x', h.2⟩

/-- The `n` bytes of a block are allocated by hand at the top. -/
theorem tandem_allocateOther (n : Nat) :
    Tandem (AlikeAt p o o') (allocateOther n) (allocateOther n)
      (fun x x' s t => ∃ a : Arena, (x' = x ∧ x = o.buffer.addrAt o.arena.top ∧ o.arena.top + n ≤ a.top) ∧
        AlikeAt p { o with arena := a } { o' with arena := a } s t) (Alike p) := by
  simp only [allocateOther]
  refine Tandem.read fun s t h => ?_
  obtain ⟨-, rfl, -, -⟩ := h
  dsimp only
  split
  · exact Tandem.violate _ _ fun _ _ h => ⟨o, o', h.2⟩
  refine ((tandem_openOutput _).before fun _ _ h => h.2).bind fun x x' => Tandem.assume ?_
  rintro ⟨rfl, rfl, halike⟩
  rw [halike.arena_eq]
  refine (Tandem.ofBuild _ fun _ _ h => ⟨x, x', h⟩).bind fun q q' => Tandem.assume ?_
  rintro ⟨rfl, hallocate⟩
  obtain ⟨⟨hplace, htop⟩, hraised⟩ := halike.allocate hallocate
  refine (tandem_changeOutput ({ · with arena := q'.2 }) hraised).bind fun _ _ => Tandem.bind (Q := fun _ _ => AlikeAt p { x with arena := q'.2 }
      { x' with arena := q'.2 }) (Tandem.update fun s t h => ⟨h.left, ?_, h.alike, h.sized⟩) fun _ _ =>
    Tandem.pure fun s t h => ⟨q'.2, ⟨halike.addrAt_eq _, by rw [hplace], htop⟩, h⟩
  rw [h.right]

/-- The sessions `s` and `t` are alike, and what is allocated is the same as in `o₀`. -/
def RoomAlike (p : Patch) (o₀ : Output) (s t : Session) : Prop :=
  ∃ o o', o₀.SameRoom o ∧ AlikeAt p o o' s t

theorem RoomAlike.alike {o₀ : Output} {s t : Session} (h : RoomAlike p o₀ s t) : Alike p s t := by
  obtain ⟨o, o', -, h⟩ := h
  exact ⟨o, o', h⟩

/-- A field at `n` below the top and outside of the patch is wired. -/
theorem tandem_wireField {o₀ : Output} {n : Nat} (hoff : ¬p.covers (n / wordBytes))
    (htop : wordBytes * (n / wordBytes) < o₀.arena.top) :
    Tandem (RoomAlike p o₀) (wireField n) (wireField n) (fun _ _ => RoomAlike p o₀) (Alike p) := by
  unfold wireField
  refine Tandem.pick fun o => Tandem.pick fun o' => Tandem.assume fun hroom => ?_
  refine (tandem_output _).bind fun x x' => Tandem.assume ?_
  rintro ⟨rfl, rfl, halike⟩
  have hread : x'.buffer.read n = x.buffer.read n := halike.read_off hoff
  refine Tandem.read fun s t h => ?_
  rw [h.right, hread]
  refine (Tandem.ofViolation _ fun _ _ h => ⟨x, x', h.2⟩).bind fun r r' => Tandem.assume ?_
  rintro ⟨rfl, -⟩
  exact (Tandem.tell _ _).bind fun _ _ => (tandem_changeOutput (·.setPointer n r'.word)
    (halike.setPointer _ hoff (by rw [hroom.arena]; exact htop))).conseq
    (fun _ _ h => h.2) (fun _ _ _ _ h => ⟨_, _, hroom.setPointer _ _, h⟩) fun _ _ h => h

/-- The noted fields of the copies of `s` lie below the top and outside of the patch. -/
def FieldsOff (p : Patch) (s : Session) (o : Output) : Prop :=
  ∀ kind, ∀ w ∈ (s.copyList kind).sources.toList, ∀ e target base, s.catalog.get? w = some e →
    e.output? = some target → o.buffer.slotOffset target = .ok base →
    ∀ n ∈ (s.copyList kind).pointerOffsets e,
      ¬p.covers ((base + n) / wordBytes) ∧ wordBytes * ((base + n) / wordBytes) < o.arena.top

/-- The catalog and the lists of `s` are those of `s₀`. -/
def SameBooks (s₀ s : Session) : Prop := s.catalog = s₀.catalog ∧ ∀ kind, s.copyList kind = s₀.copyList kind

theorem WireStep.sameBooks {s₀ s s' : Session} {l : CopyList} {w : Word} (hstep : WireStep l w s s')
    (h : SameBooks s₀ s) : SameBooks s₀ s' := by
  obtain ⟨_, _, _, _, _, _, -, -, -, -, -, rfl⟩ := hstep
  exact ⟨h.1, fun kind => by rw [← h.2 kind]; cases kind <;> rfl⟩

theorem tandem_wireObject {s₀ : Session} {o₀ : Output} (hfields : FieldsOff p s₀ o₀) {kind : RegionKind}
    {w : Word} (hw : w ∈ (s₀.copyList kind).sources.toList) :
    Tandem (fun s t => SameBooks s₀ s ∧ RoomAlike p o₀ s t) (wireObject (s₀.copyList kind) w)
      (wireObject (s₀.copyList kind) w) (fun _ _ s t => SameBooks s₀ s ∧ RoomAlike p o₀ s t) (Alike p) := by
  refine (Tandem.along (P := fun s t => SameBooks s₀ s ∧ RoomAlike p o₀ s t) ?_
    (keeps_wireObject fun _ _ hstep h => hstep.sameBooks h)).before fun _ _ h => ⟨h.1, h⟩
  unfold wireObject
  refine Tandem.read fun s t ⟨hbooks, o, o', hroom, h⟩ => ?_
  rw [h.right]
  dsimp only
  rw [hbooks.1]
  cases he : s₀.catalog.get? w with
  | none => exact Tandem.throw _ _ fun _ _ h => h.2.2.alike
  | some e =>
    dsimp only
    cases htarget : e.output? with
    | none => exact Tandem.throw _ _ fun _ _ h => h.2.2.alike
    | some target =>
      dsimp only
      refine Tandem.before (P := RoomAlike p o₀) ?_ fun _ _ h => h.2.2
      refine Tandem.pick fun o => Tandem.pick fun o' => Tandem.assume fun hroom => ?_
      refine (tandem_output _).bind fun x x' => Tandem.assume ?_
      rintro ⟨rfl, rfl, halike⟩
      rw [halike.slotOffset_eq, Buffer.slotOffset_congr hroom.bottom hroom.length]
      refine (Tandem.ofViolation _ fun _ _ h => ⟨x, x', h⟩).bind fun base base' => Tandem.assume ?_
      rintro ⟨rfl, hbase⟩
      refine (Tandem.forM fun n hn => ?_).before fun _ _ h => ⟨x, x', hroom, h⟩
      obtain ⟨hoff, htop⟩ := hfields kind w hw e target base' he htarget hbase n hn
      exact tandem_wireField hoff htop

theorem tandem_wireRegion {s₀ : Session} {o₀ : Output} (hfields : FieldsOff p s₀ o₀) (kind : RegionKind) :
    Tandem (fun s t => SameBooks s₀ s ∧ RoomAlike p o₀ s t) (wireRegion kind) (wireRegion kind)
      (fun _ _ s t => SameBooks s₀ s ∧ RoomAlike p o₀ s t) (Alike p) := by
  unfold wireRegion
  refine Tandem.read fun s t h => ?_
  rw [h.2.alike.copyList, h.1.2 kind]
  exact (Tandem.forM fun w hw => tandem_wireObject hfields hw).before fun _ _ h => h.2

theorem tandem_wire {s₀ : Session} {o₀ : Output} (hfields : FieldsOff p s₀ o₀) :
    Tandem (fun s t => SameBooks s₀ s ∧ RoomAlike p o₀ s t) wire wire (fun _ _ => Alike p) (Alike p) := by
  unfold wire
  exact (Tandem.requireStage _ _ (fun _ _ h => h.2.alike.stage) fun _ _ h => h.2.alike).bind fun _ _ =>
    (Tandem.tell _ _).bind fun _ _ => (tandem_wireRegion hfields .mutable).bind fun _ _ =>
    (tandem_wireRegion hfields .readOnly).bind fun _ _ =>
    (tandem_enter _).before fun _ _ h => h.2.alike

end SessionM

end SnapshotArchive
