import Mathlib.Tactic.Common
import SnapshotArchive.Proofs.Allocation
import SnapshotArchive.Proofs.Triples
import SnapshotArchive.Session.Copying

/-!
What copying an object does to a session. A copy takes fresh bytes, fills them with the words of its
object, and has its first word point at a dispatch table where there is one. Whatever lies below the
top of the arena is left alone, also by a copy that fails. What the catalog can do about a copy, and
about an entry that stands in for one, is said once (`Catalog.place_cases`, `Catalog.addAlias_cases`).
-/

namespace SnapshotArchive

namespace Words

/-- Words `j` below the place `start` of a copy stay. -/
theorem read_copyBytes_below (m : Words) {start bytes j : Nat} (source : Nat → Word) (h : j < start) :
    (m.copyBytes start source bytes).read j = m.read j := by
  unfold copyBytes
  dsimp only
  split
  · rw [read_writeAll, if_neg (by omega)]
  · have hle := Nat.le_add_right start (bytes / wordBytes)
    rw [read_write_ne _ _ (by omega), read_writeAll, if_neg (by omega)]

/-- Words `j` past the last byte of a copy stay. -/
theorem read_copyBytes_above (m : Words) {start bytes j : Nat} (source : Nat → Word)
    (h : wordBytes * start + bytes ≤ wordBytes * j) :
    (m.copyBytes start source bytes).read j = m.read j := by
  have hfull := Nat.div_add_mod bytes wordBytes
  unfold wordBytes at h hfull
  unfold copyBytes wordBytes
  dsimp only
  split
  · rw [read_writeAll, if_neg (by omega)]
  · rw [read_write_ne _ _ (by omega), read_writeAll, if_neg (by omega)]

/-- Word `j` of a copy is `source j`, if it is covered in whole. -/
theorem read_copyBytes (m : Words) {start bytes j : Nat} (source : Nat → Word)
    (h : j < bytes / wordBytes) : (m.copyBytes start source bytes).read (start + j) = source j := by
  have hin : start ≤ start + j ∧ start + j < start + bytes / wordBytes := by omega
  unfold copyBytes
  dsimp only
  split
  · rw [read_writeAll, if_pos hin, Nat.add_sub_cancel_left]
  · rw [read_write_ne _ _ (by omega), read_writeAll, if_pos hin, Nat.add_sub_cancel_left]

end Words

namespace Buffer

variable {b : Buffer}

/-- An `offset` within the buffer is the distance of its address from the bottom. -/
theorem toNat_addrAt {offset : Nat} (h : offset ≤ b.length) :
    (b.addrAt offset).toNat = b.bottom.toNat + offset :=
  Word.toNat_plus (Nat.lt_of_le_of_lt (Nat.add_le_add_left h _) b.fits)

theorem range_top (b : Buffer) : b.range.top.toNat = b.bottom.toNat + b.length := by
  have hfits := b.fits
  unfold addressLimit at hfits
  change (UInt64.ofNat (b.bottom.toNat + b.length)).toNat = _
  rw [UInt64.toNat_ofNat_of_lt' hfits]

theorem offsetOf?_eq_some {w : Word} {n : Nat} :
    b.offsetOf? w = some n ↔ w.toNat = b.bottom.toNat + n ∧ n < b.length := by
  unfold offsetOf?
  split
  · rename_i h
    rw [AddrRange.contains_iff, range_top] at h
    rw [Option.some_inj]
    change b.bottom.toNat ≤ _ ∧ _ at h
    omega
  · rename_i h
    rw [AddrRange.contains_iff, range_top] at h
    change ¬(b.bottom.toNat ≤ _ ∧ _) at h
    refine ⟨nofun, fun hn => absurd ?_ h⟩
    omega

/-- A slot is an aligned word of the buffer, `n` bytes above the bottom. -/
theorem slotOffset_eq_ok_iff {slot : Addr .buffer} {n : Nat} :
    b.slotOffset slot = .ok n ↔
      slot.toNat = b.bottom.toNat + n ∧ 8 ∣ n ∧ n + wordBytes ≤ b.length := by
  rw [slotOffset_eq_ok, offsetOf?_eq_some, isAligned_word]
  unfold Addr.toNat wordBytes
  constructor
  · rintro ⟨⟨h, -⟩, hd, hn⟩
    exact ⟨h, hd, hn⟩
  · rintro ⟨h, hd, hn⟩
    exact ⟨⟨h, by omega⟩, hd, hn⟩

/-- A slot is refused for where it lies. -/
theorem slotOffset_eq_error {slot : Addr .buffer} {v : Violation} (h : b.slotOffset slot = .error v) :
    v = .slotOutsideBuffer slot.word := by
  unfold slotOffset at h
  split at h
  · split at h
    · cases h
    · cases h
      rfl
  · cases h
    rfl

/-- Only the place of the buffer counts, its `bottom` and `length`. -/
theorem slotOffset_congr {b' : Buffer} (hbottom : b'.bottom = b.bottom) (hlength : b'.length = b.length)
    {slot : Addr .buffer} : b'.slotOffset slot = b.slotOffset slot := by
  have hrange : b'.range.contains slot.word = b.range.contains slot.word := by
    unfold AddrRange.contains
    rw [range_top, range_top, hlength, hbottom]
    change (decide (b'.bottom.toNat ≤ _) && _) = (decide (b.bottom.toNat ≤ _) && _)
    rw [hbottom]
  unfold slotOffset offsetOf?
  rw [hrange, hlength, hbottom]

end Buffer

namespace Output

theorem mark_eq (o : Output) (offset : Nat) :
    o.mark offset = { o with pointers := (o.mark offset).pointers } := by
  unfold mark
  split <;> rfl

/-- Storing `w` at `offset` changes one word and the marks. -/
theorem setPointer_eq (o : Output) (offset : Nat) (w : Word) :
    o.setPointer offset w =
      { o with
        buffer := o.buffer.write offset w
        pointers := (o.setPointer offset w).pointers } := mark_eq ..

/-- The stored pointer `w` is noted if it is not null. -/
theorem has_setPointer (o : Output) (offset : Nat) (w : Word) (j : Nat) :
    (o.setPointer offset w).pointers.has j =
      (o.pointers.has j || (decide (j = offset / wordBytes) && w != 0)) := by
  have hread : (o.write offset w).buffer.read offset = w := Words.read_write_self ..
  unfold setPointer
  rw [has_mark, hread]
  rfl

end Output

/-- More is allocated in `o'`, and nothing below the old top of `o` has changed. -/
structure Output.Grows (o o' : Output) : Prop where
  arena : ∃ t, o.arena.top ≤ t ∧ t ≤ o.arena.currentRegion.limit ∧ 8 ∣ t ∧
    o'.arena = o.arena.advance t
  bottom : o'.buffer.bottom = o.buffer.bottom
  length : o'.buffer.length = o.buffer.length
  requested : o'.requestedBottom = o.requestedBottom
  meter : o'.meter = o.meter
  advisories : o'.advisories = o.advisories
  words : ∀ j, 8 * j < o.arena.top → o'.buffer.words.read j = o.buffer.words.read j
  marks : ∀ j, 8 * j < o.arena.top → o'.pointers.has j = o.pointers.has j

theorem Output.grows_advance {o : Output} {t : Nat} (hlow : o.arena.top ≤ t)
    (hhigh : t ≤ o.arena.currentRegion.limit) (hdvd : 8 ∣ t) :
    o.Grows { o with arena := o.arena.advance t } :=
  ⟨⟨t, hlow, hhigh, hdvd, rfl⟩, rfl, rfl, rfl, rfl, rfl, fun _ _ => rfl, fun _ _ => rfl⟩

theorem Output.Grows.top_le {o o' : Output} (h : o.Grows o') : o.arena.top ≤ o'.arena.top := by
  obtain ⟨t, hlow, -, -, harena⟩ := h.arena
  rw [harena, Arena.top_advance]
  exact hlow

/-- Whether an operation fails for want of room: no bytes are left, or more were used than estimated. -/
def Failure.isShortage : Failure → Bool
  | .error (.outOfSpace ..) | .error (.invariant (.estimateTooSmall ..)) => true
  | _ => false

/-- What the copy of an object of `size` bytes takes: these, and those of the lookup record in
    front. -/
def ObjectKind.footprint (kind : ObjectKind) (size : Nat) : Nat :=
  (if kind = .typeDescriptor then allocatedBytes wordBytes else 0) + allocatedBytes size

/-- What the copy of an object takes. -/
def SourceEntry.footprint (e : SourceEntry) : Nat := e.kind.footprint e.size

/-- The word that the copy of `e` at `target` starts out with: that of its object, or the address of
    its table. -/
def copiedWord (tables : TableProvider) (host : Host) (e : SourceEntry) (target : Addr .buffer) :
    Nat → Word
  | 0 =>
    match tables e.kind target with
    | some table => table.word
    | none => host.wordAt e.source 0
  | j + 1 => host.wordAt e.source (j + 1)

/-- Whether the copy of `e` at `target` starts with a pointer to a table. -/
def startsWithTable (tables : TableProvider) (e : SourceEntry) (target : Addr .buffer) : Bool :=
  (tables e.kind target).any (·.word != 0)

/-- The object of `e` is copied to `offset` of `o'`, at the address `target`. -/
structure CopyDone (tables : TableProvider) (host : Host) (e : SourceEntry) (o o' : Output)
    (offset : Nat) (target : Addr .buffer) : Prop where
  grows : o.Grows o'
  top : o'.arena.top = o.arena.top + e.footprint
  low : o.arena.top ≤ offset
  high : offset + e.size ≤ o'.arena.top
  aligned : 8 ∣ offset
  place : target.toNat = o.buffer.bottom.toNat + offset
  words : ∀ j, j < e.size / wordBytes →
    o'.buffer.words.read (offset / wordBytes + j) = copiedWord tables host e target j
  marks : ∀ j, o'.pointers.has j =
    (o.pointers.has j || (decide (j = offset / wordBytes) && startsWithTable tables e target))
  /-- Only a table of an object without bytes could go past the new top. -/
  above : 0 < e.size → ∀ j, o'.arena.top ≤ wordBytes * j →
    o'.buffer.words.read j = o.buffer.words.read j ∧ o'.pointers.has j = o.pointers.has j

/-- A copy of `e` that failed with `f` may have taken bytes, and marked a word at or above them. It
    fails for want of room only where what it takes does not fit. -/
structure CopyStopped (tables : TableProvider) (e : SourceEntry) (o o' : Output) (f : Failure) : Prop where
  grows : o.Grows o'
  top : o'.arena.top ≤ o.arena.top + e.footprint
  plain : (∀ kind target, tables kind target = none) → ∀ j, o'.pointers.has j = o.pointers.has j
  marks : ∀ j, o'.pointers.has j = true →
    o.pointers.has j = true ∨ wordBytes * j + e.size ≤ o'.arena.top
  above : 0 < e.size → ∀ j, o'.arena.top ≤ wordBytes * j →
    o'.buffer.words.read j = o.buffer.words.read j ∧ o'.pointers.has j = o.pointers.has j
  shortage : f.isShortage = true → o.arena.currentRegion.limit < o.arena.top + e.footprint

/-- A copy of `e` that was made may still be refused its place. -/
theorem CopyDone.stopped {tables : TableProvider} {host : Host} {e : SourceEntry} {o' : Output}
    {offset : Nat} {target : Addr .buffer} (h : CopyDone tables host e o o' offset target) {f : Failure}
    (hf : f.isShortage = false) : CopyStopped tables e o o' f where
  grows := h.grows
  top := Nat.le_of_eq h.top
  plain hnone j := by
    rw [h.marks, startsWithTable, hnone]
    simp
  marks j hj := by
    rw [h.marks, Bool.or_eq_true, Bool.and_eq_true, decide_eq_true_eq] at hj
    refine hj.imp_right fun hhead => ?_
    have hplace : wordBytes * j = offset := by
      rw [hhead.1]
      exact Nat.mul_div_cancel' h.aligned
    rw [hplace]
    exact h.high
  above := h.above
  shortage hshort := by rw [hf] at hshort; cases hshort

/-- The session `s'` after a copy of `e` that failed with `f`; the entries are those of `s`. -/
def CopyFailed (tables : TableProvider) (e : SourceEntry) (s : Session) (o : Output) (f : Failure)
    (s' : Session) : Prop :=
  ∃ o' catalog, CopyStopped tables e o o' f ∧ (∀ w, catalog.get? w = s.catalog.get? w) ∧
    s' = { s with output? := some o', catalog := catalog }

namespace Catalog

/-- The catalog `c` where the address `output` belongs to `source`. -/
def withOwner (c : Catalog) (output : Addr .buffer) (source : Word) : Catalog :=
  { c with sources := c.sources.insert output.word source }

theorem sourceOf?_withOwner (c : Catalog) (output : Addr .buffer) (source : Word) (a : Addr .buffer) :
    (c.withOwner output source).sourceOf? a = if output = a then some source else c.sourceOf? a := by
  simp [withOwner, sourceOf?, Std.TreeMap.getElem?_insert, Addr.ext_iff]

/-- A copy is refused at once if `source` is not known or not to be copied any more. Otherwise
    `output` belongs to it from then on, and it is refused if `output` belonged to an object
    before. -/
theorem place_cases (c : Catalog) (source : Word) (output : Addr .buffer) :
    (∃ v, c.place source output = (.error v, c) ∧
      (v = .unresolvedPointer source ∨ ∃ e : SourceEntry, v = .copiedTwice e.kind e.source)) ∨
    ∃ e, c.get? source = some e ∧ e.isCopied = true ∧ e.output? = none ∧
      ((∃ owner, c.sourceOf? output = some owner ∧ c.place source output =
          (.error (.duplicateOutput output.word), c.withOwner output source)) ∨
        c.sourceOf? output = none ∧ c.place source output =
          (.ok (), (c.withOwner output source).put { e with output? := some output })) := by
  unfold place
  rcases c.get? source with - | e
  · exact .inl ⟨_, rfl, .inl rfl⟩
  by_cases hmade : (!e.isCopied || e.output?.isSome) = true
  · exact .inl ⟨_, if_pos hmade, .inr ⟨e, rfl⟩⟩
  · have hfresh : e.isCopied = true ∧ e.output? = none := by simpa using hmade
    refine .inr ⟨e, rfl, hfresh.1, hfresh.2, ?_⟩
    dsimp only
    rw [if_neg hmade]
    rcases c.sourceOf? output with - | owner
    · exact .inr ⟨rfl, rfl⟩
    · exact .inl ⟨owner, rfl, rfl⟩

/-- A stand-in is refused if `substitute` is not settled or `former` is taken; otherwise it is
    entered, and nothing else changes. -/
theorem addAlias_cases (c : Catalog) (former substitute : Word) :
    ((∀ e, c.get? substitute = some e → e.resolution? = none) ∧
      c.addAlias former substitute = .error (.substituteNotArchived former substitute)) ∨
    ∃ e outcome, c.get? substitute = some e ∧ e.resolution? = some outcome ∧
      ((∃ x, c.get? former = some x) ∧
          c.addAlias former substitute = .error (.duplicateRegistration former) ∨
        c.get? former = none ∧ c.addAlias former substitute = .ok (c.put (e.standIn former))) := by
  unfold addAlias
  rcases c.get? substitute with - | e
  · refine .inl ⟨?_, rfl⟩
    rintro e ⟨⟩
  dsimp only
  rcases hout : e.resolution? with - | outcome
  · refine .inl ⟨fun x hx => ?_, rfl⟩
    obtain rfl := Option.some_inj.1 hx
    exact hout
  · refine .inr ⟨e, outcome, rfl, hout, ?_⟩
    unfold add
    rw [show (e.standIn former).source = former from rfl]
    rcases c.get? former with - | x
    · exact .inr ⟨rfl, rfl⟩
    · exact .inl ⟨⟨x, rfl⟩, rfl⟩

end Catalog

namespace SessionM

variable {s : Session} {o : Output}

/-- An operation `m` that is done on the condition `c`, and then the rest `k`. -/
theorem wp_maybe {α β : Type} {Q : α → Run → Prop} {E : Failure → Run → Prop} {r : Run} {c : Prop}
    [Decidable c] {m : SessionM β} {k : SessionM α} {I : Session → Prop} {F : Failure → Session → Prop}
    (hm : c → Triple (· = r.session) m (fun _ => I) F) (hs : ¬c → I r.session)
    (hF : ∀ f r', F f r'.session → E f r') (hk : ∀ r', I r'.session → k.wp Q E r') :
    (if c then m >>= fun _ => k else k).wp Q E r := by
  split
  · rename_i h
    rw [wp_bind]
    exact (hm h).use rfl (fun _ r' h => hk r' h) hF
  · rename_i h
    exact hk r (hs h)

/-- The session `s'` once the current region of `o` ends at `t`. -/
def Advanced (s : Session) (o : Output) (t : Nat) (s' : Session) : Prop :=
  o.arena.top ≤ t ∧ t ≤ o.arena.currentRegion.limit ∧ 8 ∣ t ∧
    s' = { s with output? := some { o with arena := o.arena.advance t } }

theorem triple_allocateCopy (hout : s.output? = some o) (hopen : s.stage.before .relocated = true)
    (ha : o.arena.Sound) (hlength : o.arena.length < addressLimit) (n : Nat) :
    Triple (· = s) (allocateCopy n)
      (fun offset s' => offset = o.arena.top ∧ n ≤ allocatedBytes n ∧
        Advanced s o (o.arena.top + allocatedBytes n) s')
      (fun _ s' => s' = s ∧ o.arena.currentRegion.limit < o.arena.top + allocatedBytes n) := by
  rintro r rfl
  unfold allocateCopy
  simp only [wp_bind, wp_openOutput, hout, hopen, if_true, wp_ofBuild]
  cases h : o.arena.allocate n with
  | error e => exact ⟨trivial, Arena.allocate_full ha hlength h⟩
  | ok p =>
    obtain ⟨offset, arena⟩ := p
    obtain ⟨rfl, hle, hhigh, hdvd, rfl⟩ := Arena.allocate_eq_ok ha h
    simp only [wp_changeOutput, wp_pure, hout, Option.map_some]
    exact ⟨trivial, hle, Nat.le_add_right .., hhigh, hdvd, rfl⟩

theorem wp_copyWords {Q : Unit → Run → Prop} {E : Failure → Run → Prop} {r : Run} (offset : Nat)
    (source : Word) (size : Nat) :
    (copyWords offset source size).wp Q E r =
      Q () { r with session := { r.session with output? := r.session.output?.map fun o =>
        { o with buffer := o.buffer.copyIn offset (r.session.host.wordAt source) size } } } := rfl

theorem wp_installTable {Q : Unit → Run → Prop} {E : Failure → Run → Prop} {r : Run}
    {target table : Addr .buffer} (offset : Nat) (hout : r.session.output? = some o)
    (hopen : r.session.stage.before .relocated = true)
    (htarget : ∀ n, o.buffer.slotOffset target = .ok n → n = offset)
    (hfail : ∀ slot, E (Violation.slotOutsideBuffer slot) r)
    (hdone : Q () { r with session := { r.session with
      output? := some (o.setPointer offset table.word) } }) :
    (installTable target table).wp Q E r := by
  unfold installTable
  simp only [wp_bind, wp_openOutput, hout, hopen, if_true, wp_ofViolation]
  cases h : o.buffer.slotOffset target with
  | error v => exact Buffer.slotOffset_eq_error h ▸ hfail _
  | ok n =>
    cases h' : o.buffer.slotOffset table with
    | error v => exact Buffer.slotOffset_eq_error h' ▸ hfail _
    | ok m =>
      simp only [wp_changeOutput, hout, Option.map_some, htarget n h]
      exact hdone

/-- A copy that is refused its place `target` leaves the entries as they were. -/
theorem place_error {c c' : Catalog} {source : Word} {target : Addr .buffer} {v : Violation}
    (h : c.place source target = (.error v, c')) (w : Word) : c'.get? w = c.get? w := by
  rcases c.place_cases source target with
    ⟨v', hplace, -⟩ | ⟨e, -, -, -, ⟨owner, -, hplace⟩ | ⟨-, hplace⟩⟩ <;> cases hplace.symm.trans h <;> rfl

/-- A copy is never refused its place for want of room. -/
theorem place_not_shortage {c c' : Catalog} {source : Word} {target : Addr .buffer} {v : Violation}
    (h : c.place source target = (.error v, c')) : Failure.isShortage v = false := by
  rcases c.place_cases source target with
    ⟨v', hplace, rfl | ⟨e, rfl⟩⟩ | ⟨e, -, -, -, ⟨owner, -, hplace⟩ | ⟨-, hplace⟩⟩ <;>
    cases hplace.symm.trans h <;> rfl

/-- A copy that is given its place `target` was not made before. -/
theorem place_eq_ok {c c' : Catalog} {source : Word} {target : Addr .buffer}
    (h : c.place source target = (.ok (), c')) :
    ∃ e, c.get? source = some e ∧ e.isCopied = true ∧ e.output? = none ∧ ∀ w, c'.get? w =
      if e.source = w then some { e with output? := some target } else c.get? w := by
  rcases c.place_cases source target with
    ⟨v, hplace, -⟩ | ⟨e, he, hcopied, hfresh, ⟨owner, -, hplace⟩ | ⟨-, hplace⟩⟩ <;> cases hplace.symm.trans h
  exact ⟨e, he, hcopied, hfresh, fun w => Catalog.get?_put ..⟩

theorem wp_placeCopy {Q : Unit → Run → Prop} {E : Failure → Run → Prop} {r : Run} (source : Word)
    (target : Addr .buffer)
    (hfail : ∀ (v : Violation) c, (∀ w, c.get? w = r.session.catalog.get? w) → Failure.isShortage v = false →
      E (.error (.invariant v)) { r with session := { r.session with catalog := c } })
    (hdone : ∀ c, r.session.catalog.place source target = (.ok (), c) →
      Q () { r with session := { r.session with catalog := c } }) :
    (placeCopy source target).wp Q E r := by
  unfold placeCopy
  simp only [wp_bind, wp_session, wp_update, wp_ofViolation]
  rcases h : r.session.catalog.place source target with ⟨_ | _, c⟩
  · exact hfail _ _ (place_error h) (place_not_shortage h)
  · exact hdone _ h

theorem Advanced.self (hout : s.output? = some o) (ha : o.arena.Sound) :
    Advanced s o o.arena.top s := by
  refine ⟨Nat.le_refl _, ha.top_le_limit, ha.dvd_top, ?_⟩
  rw [Arena.advance_top]
  change s = { s with output? := some o }
  rw [← hout]

theorem Advanced.failed {t : Nat} {s' : Session} (h : Advanced s o t s') (tables : TableProvider)
    (e : SourceEntry) {f : Failure} (ht : t ≤ o.arena.top + e.footprint)
    (hshort : f.isShortage = true → o.arena.currentRegion.limit < o.arena.top + e.footprint) :
    CopyFailed tables e s o f s' :=
  ⟨_, s.catalog, ⟨Output.grows_advance h.1 h.2.1 h.2.2.1,
      Nat.le_trans (Nat.le_of_eq (Arena.top_advance ..)) ht, fun _ _ => rfl, fun _ => Or.inl,
      fun _ _ _ => ⟨rfl, rfl⟩, hshort⟩,
    fun _ => rfl, h.2.2.2⟩

/-- The output `o` once the words of `e` are copied to fresh bytes at `offset`, below `t`. -/
def filled (o : Output) (t offset : Nat) (host : Host) (e : SourceEntry) : Output :=
  { o with
    arena := o.arena.advance t
    buffer := o.buffer.copyIn offset (host.wordAt e.source) e.size }

/-- The output `o` once the table of a copy at `offset`, if there is one, is in its first word. -/
def headed (o : Output) (offset : Nat) : Option (Addr .buffer) → Output
  | some table => o.setPointer offset table.word
  | none => o

theorem headed_buffer (o : Output) (offset : Nat) (table? : Option (Addr .buffer)) :
    (headed o offset table?).buffer =
      match table? with
      | some table => o.buffer.write offset table.word
      | none => o.buffer := by
  cases table? with
  | none => rfl
  | some table => exact Output.buffer_mark ..

theorem headed_eq (o : Output) (offset : Nat) (table? : Option (Addr .buffer)) :
    headed o offset table? =
      { o with
        buffer := (headed o offset table?).buffer
        pointers := (headed o offset table?).pointers } := by
  cases table? with
  | none => rfl
  | some table =>
    rw [headed_buffer]
    exact Output.setPointer_eq ..

theorem headed_read (o : Output) (offset : Nat) (table? : Option (Addr .buffer)) (j : Nat) :
    (headed o offset table?).buffer.words.read j =
      if offset / wordBytes = j then (table?.map (·.word)).getD (o.buffer.words.read j)
      else o.buffer.words.read j := by
  rw [headed_buffer]
  cases table? with
  | none => simp
  | some table => exact Words.read_write ..

theorem headed_has (o : Output) (offset : Nat) (table? : Option (Addr .buffer)) (j : Nat) :
    (headed o offset table?).pointers.has j =
      (o.pointers.has j || (decide (j = offset / wordBytes) && table?.any (·.word != 0))) := by
  cases table? with
  | none => simp [headed]
  | some table => exact Output.has_setPointer ..

/-- Fresh bytes at `offset`, filled and with the table in front, are a copy of `e`. -/
theorem copyDone_headed {t offset : Nat} {target : Addr .buffer} (tables : TableProvider)
    (host : Host) (e : SourceEntry) (htop : t = o.arena.top + e.footprint)
    (hlow : o.arena.top ≤ offset) (hroom : offset + e.size ≤ t)
    (hhigh : t ≤ o.arena.currentRegion.limit) (hdvd : 8 ∣ t) (haligned : 8 ∣ offset)
    (hplace : target.toNat = o.buffer.bottom.toNat + offset) :
    CopyDone tables host e o (headed (filled o t offset host e) offset (tables e.kind target))
      offset target where
  grows := by
    refine ⟨⟨t, by omega, hhigh, hdvd, by rw [headed_eq]; rfl⟩, ?_, ?_, by rw [headed_eq]; rfl,
      by rw [headed_eq]; rfl, by rw [headed_eq]; rfl, ?_, ?_⟩
    · rw [headed_buffer]
      split <;> rfl
    · rw [headed_buffer]
      split <;> rfl
    · intro j hj
      have hne : offset / wordBytes ≠ j := by unfold wordBytes; omega
      rw [headed_read, if_neg hne]
      exact Words.read_copyBytes_below _ _ (by unfold wordBytes; omega)
    · intro j hj
      have hne : j ≠ offset / wordBytes := by unfold wordBytes; omega
      rw [headed_has]
      simp [hne, filled]
  top := by
    rw [headed_eq]
    exact (Arena.top_advance ..).trans htop
  low := hlow
  high := by
    rw [headed_eq]
    exact Nat.le_trans hroom (Nat.le_of_eq (Arena.top_advance ..).symm)
  aligned := haligned
  place := hplace
  words j hj := by
    have hcopy : (filled o t offset host e).buffer.words.read (offset / wordBytes + j) =
        host.wordAt e.source j := Words.read_copyBytes _ _ hj
    rw [headed_read, hcopy]
    cases j with
    | zero =>
      rw [if_pos (Nat.add_zero _).symm]
      unfold copiedWord
      cases tables e.kind target <;> rfl
    | succ j =>
      rw [if_neg (by omega)]
      rfl
  marks j := headed_has ..
  above hsize j hj := by
    have htop : t ≤ wordBytes * j := by
      rw [headed_eq] at hj
      exact (Nat.le_of_eq (Arena.top_advance ..).symm).trans hj
    have hplace : wordBytes * (offset / wordBytes) = offset := Nat.mul_div_cancel' haligned
    have hne : offset / wordBytes ≠ j := by rintro rfl; omega
    rw [headed_read, if_neg hne, headed_has, decide_eq_false (Ne.symm hne), Bool.false_and, Bool.or_false]
    exact ⟨Words.read_copyBytes_above _ _ (by omega), rfl⟩

theorem wp_finishCopy {tables : TableProvider} {e : SourceEntry} (o' : Output) {offset : Nat}
    {target : Addr .buffer} {r : Run} {event : Event} {count : Output → Session → Session}
    (hr : r.session = { s with output? := some o' }) (hopen : s.stage.before .relocated = true)
    (hcount : ∀ o s, ∃ stats, count o s = { s with stats := stats })
    (h : CopyDone tables s.host e o o' offset target) :
    SessionM.wp (do
      placeCopy e.source target
      tell event
      let after ← openOutput "make_shallow_copy"
      update (count after))
    (fun _ r' => ∃ o' offset target catalog stats, CopyDone tables s.host e o o' offset target ∧
        s.catalog.place e.source target = (.ok (), catalog) ∧
        r'.session = { s with output? := some o', catalog := catalog, stats := stats })
    (fun f r' => CopyFailed tables e s o f r'.session) r := by
  rw [wp_bind]
  refine wp_placeCopy _ _ (fun v c hc hv => ?_) fun c hc => ?_
  · rw [hr] at hc ⊢
    exact ⟨o', c, h.stopped hv, hc, rfl⟩
  · rw [hr] at hc ⊢
    simp only [wp_bind, wp_tell, wp_openOutput, hopen, if_true, wp_update]
    obtain ⟨stats, hstats⟩ := hcount o' { s with output? := some o', catalog := c }
    exact ⟨o', offset, target, c, stats, h, hc, hstats⟩

/-- Fresh bytes at `offset` are filled, get the table of their kind, and become the copy of `e`. -/
theorem wp_fillCopy (hopen : s.stage.before .relocated = true) (tables : TableProvider) (e : SourceEntry)
    {offset : Nat} {r : Run} {event : Event} {count : Output → Session → Session}
    (hr : r.session =
      { s with output? := some { o with arena := o.arena.advance (o.arena.top + e.footprint) } })
    (hlow : o.arena.top ≤ offset) (hroom : offset + e.size ≤ o.arena.top + e.footprint)
    (hhigh : o.arena.top + e.footprint ≤ o.arena.currentRegion.limit) (hdvd : 8 ∣ o.arena.top + e.footprint)
    (haligned : 8 ∣ offset) (hin : offset ≤ o.buffer.length)
    (hcount : ∀ o s, ∃ stats, count o s = { s with stats := stats }) :
    SessionM.wp (do
      copyWords offset e.source e.size
      match tables e.kind (o.buffer.addrAt offset) with
      | some table => installTable (o.buffer.addrAt offset) table
      | none => pure ()
      placeCopy e.source (o.buffer.addrAt offset)
      tell event
      let after ← openOutput "make_shallow_copy"
      update (count after))
    (fun _ r' => ∃ o' offset target catalog stats, CopyDone tables s.host e o o' offset target ∧
        s.catalog.place e.source target = (.ok (), catalog) ∧
        r'.session = { s with output? := some o', catalog := catalog, stats := stats })
    (fun f r' => CopyFailed tables e s o f r'.session) r := by
  have hdone := copyDone_headed tables s.host e rfl hlow hroom hhigh hdvd haligned (Buffer.toNat_addrAt hin)
  rw [wp_bind, wp_copyWords, hr]
  dsimp only [Option.map_some]
  cases htable : tables e.kind (o.buffer.addrAt offset) with
  | none =>
    rw [htable] at hdone
    exact wp_finishCopy (headed (filled o (o.arena.top + e.footprint) offset s.host e) offset none) rfl
      hopen hcount hdone
  | some table =>
    rw [htable] at hdone
    rw [wp_bind]
    refine wp_installTable (o := filled o (o.arena.top + e.footprint) offset s.host e) offset rfl hopen
      ?_ ?_ ?_
    · intro n hn
      have := (Buffer.slotOffset_eq_ok_iff.1 hn).1
      rw [Buffer.toNat_addrAt hin] at this
      change _ = o.buffer.bottom.toNat + n at this
      omega
    · intro slot
      have hfilled := copyDone_headed noTables s.host e rfl hlow hroom hhigh hdvd haligned
        (Buffer.toNat_addrAt hin)
      exact ⟨filled o (o.arena.top + e.footprint) offset s.host e, s.catalog,
        ⟨hfilled.grows, Nat.le_of_eq hfilled.top, fun _ _ => rfl, fun _ => Or.inl, hfilled.above, nofun⟩,
        fun _ => rfl, rfl⟩
    · exact wp_finishCopy (headed (filled o (o.arena.top + e.footprint) offset s.host e) offset (some table))
        rfl hopen hcount hdone

/-- A copy of `e` changes the output, the catalog and the statistics of `s`. -/
theorem triple_copyEntry (hout : s.output? = some o) (hopen : s.stage.before .relocated = true)
    (ha : o.arena.Sound) (hl : o.arena.length = o.buffer.length) (tables : TableProvider)
    (e : SourceEntry) :
    Triple (· = s) (copyEntry tables e)
      (fun _ s' => ∃ o' offset target catalog stats, CopyDone tables s.host e o o' offset target ∧
        s.catalog.place e.source target = (.ok (), catalog) ∧
        s' = { s with output? := some o', catalog := catalog, stats := stats })
      (fun f => CopyFailed tables e s o f) := by
  rintro r rfl
  have hlimit : o.arena.length < addressLimit := by
    have := o.buffer.fits
    omega
  unfold copyEntry
  simp only [wp_bind, wp_openOutput, hout, hopen, if_true]
  -- a type descriptor takes a word before its copy, for the lookup record
  refine wp_maybe (I := Advanced r.session o
      (o.arena.top + if e.kind = .typeDescriptor then allocatedBytes wordBytes else 0))
    (fun hkind => (triple_allocateCopy hout hopen ha hlimit wordBytes).conseq (fun _ h => h)
      (fun _ _ ⟨_, _, h⟩ => by rw [if_pos hkind]; exact h) fun f s' h => (⟨h, hkind⟩ :
        (s' = r.session ∧ o.arena.currentRegion.limit < o.arena.top + allocatedBytes wordBytes) ∧
          e.kind = .typeDescriptor))
    (fun hkind => by rw [if_neg hkind]; exact .self hout ha) ?_ ?_
  · rintro f r' ⟨⟨hs', hfull⟩, hkind⟩
    rw [hs']
    refine (Advanced.self hout ha).failed tables e (Nat.le_add_right ..) fun _ => ?_
    unfold SourceEntry.footprint ObjectKind.footprint
    rw [if_pos hkind]
    omega
  intro r₁ hadvanced
  have hfoot : o.arena.top + e.footprint = o.arena.top +
      (if e.kind = .typeDescriptor then allocatedBytes wordBytes else 0) + allocatedBytes e.size :=
    (Nat.add_assoc ..).symm
  generalize o.arena.top + (if e.kind = .typeDescriptor then allocatedBytes wordBytes else 0) = t₁
    at hadvanced hfoot
  obtain ⟨hlow₁, hhigh₁, hdvd₁, hs₁⟩ := id hadvanced
  have ha₁ := ha.advance hlow₁ hhigh₁ hdvd₁
  simp only [wp_bind]
  refine (triple_allocateCopy (s := r₁.session) (o := { o with arena := o.arena.advance t₁ })
    (by rw [hs₁]) (by rw [hs₁]; exact hopen) ha₁ (by rw [Arena.length_advance]; exact hlimit)
    e.size).use rfl ?_ ?_
  · rintro offset r₂ ⟨rfl, hle, hlow, hhigh, hdvd, hs₂⟩
    rw [hs₁] at hs₂
    simp only [Arena.top_advance, Arena.advance_advance, Arena.currentRegion_advance] at *
    rw [← hfoot] at hlow hhigh hdvd hs₂
    have hin : t₁ ≤ o.buffer.length := by
      have := ha.limit_le_length
      omega
    exact wp_fillCopy hopen tables e hs₂ hlow₁ (by omega) hhigh hdvd hdvd₁ hin fun _ _ => ⟨_, rfl⟩
  · rintro f r₂ ⟨hs₂, hfull⟩
    rw [hs₂]
    refine hadvanced.failed tables e (by omega) fun _ => ?_
    rw [Arena.currentRegion_advance, Arena.top_advance] at hfull
    dsimp only at hfull
    omega

end SessionM

end SnapshotArchive
