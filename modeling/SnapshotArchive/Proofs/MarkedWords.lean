import Mathlib.Tactic.Common
import SnapshotArchive.Proofs.Finishing
import SnapshotArchive.Proofs.HeapShape

/-!
Where marked words lie. Copying and wiring mark words of objects that were copied, so words below the top
of the buffer. Calls that mark a slot by hand accept any word that was reserved, and what is reserved but
not used is no part of the archive. So a mark lies in the archive or was put there by hand, and a mark
that was put past the end of the archive stays in its ledger.
-/

namespace SnapshotArchive

open SessionM

/-- The host `h` reports no empty object. -/
structure Host.Sized (h : Host) : Prop where
  root : ∀ a e, h.rootEdge? a = some e → 0 < e.size
  held : ∀ w es, h.edges w = .ok es → ∀ e ∈ es, 0 < e.size

namespace Call

/-- The slot that a call marks by hand. -/
def marksSlot? : Call → Option (Addr .buffer)
  | markPointer slot | setPointer slot _ | writePointer slot _ => some slot
  | _ => none

/-- The call `c` is answered, and it is one that marks word `i` of the buffer by hand. -/
def marks (c : Call) (s : Session) (i : Nat) : Bool :=
  (c.run.perform s).1.toOption.isSome && c.marksSlot?.any fun slot =>
    s.output?.any fun o => (o.buffer.slotOffset slot).toOption == some (i * wordBytes)

end Call

namespace Session

/-- Word `i` of the buffer of `s` is marked. -/
def marked (s : Session) (i : Nat) : Bool := s.output?.any (·.pointers.has i)

/-- Which words are marked after some calls on `s` that were marked by hand: in `hand` before, or by
    one of the calls. -/
def markedByHand (s : Session) (hand : Nat → Bool) : List Call → Nat → Bool
  | [] => hand
  | c :: calls =>
    (c.after s).markedByHand (fun i => (c.after s).marked i && (hand i || c.marks s i)) calls

/-- The bytes of the archive `a`, both regions together. -/
def Archive.length (a : Archive) : Nat := a.mutable.used + a.readOnly.used

/-- No object of `s` is empty, and none has more bits than words, of which the last may be begun
    only. -/
structure Sized (s : Session) : Prop where
  positive : ∀ w e, s.catalog.get? w = some e → 0 < e.size
  bits : ∀ w e b, s.catalog.get? w = some e → e.bits? = some b →
    wordBytes * b.stop < wordBytes * b.start + e.size + wordBytes
  total : ∀ kind, 8 ∣ (s.copyList kind).totalBytes ∨ (s.copyList kind).totalBytes = maxBytes

/-- Every marked word of `s` was reserved, and one that is not below the top was marked by
    `hand`. -/
structure Inside (hand : Nat → Prop) (s : Session) : Prop where
  sound : s.Sound
  host : s.host.Sized
  sized : s.Sized
  marks : ∀ o, s.output? = some o → ∀ i, o.pointers.has i = true →
    wordBytes * (i + 1) ≤ o.buffer.length ∧ (hand i ∨ wordBytes * (i + 1) ≤ o.arena.top)

variable {s s' : Session}

namespace Sized

/-- The size and the bits of entries and the totals of lists are all that counts. -/
theorem congr (h : s.Sized)
    (hentries : ∀ w e', s'.catalog.get? w = some e' → ∃ v e, s.catalog.get? v = some e ∧
      e'.size = e.size ∧ ∀ b, e'.bits? = some b → e.bits? = some b)
    (htotal : ∀ kind, (s'.copyList kind).totalBytes = (s.copyList kind).totalBytes) : s'.Sized where
  positive w e' he' := by
    obtain ⟨v, e, he, hsize, -⟩ := hentries w e' he'
    rw [hsize]
    exact h.positive v e he
  bits w e' b he' hb := by
    obtain ⟨v, e, he, hsize, hbits⟩ := hentries w e' he'
    rw [hsize]
    exact h.bits v e b he (hbits b hb)
  total kind := by rw [htotal]; exact h.total kind

/-- Only the catalog and the lists count. -/
theorem frame (h : s.Sized) (hcatalog : s'.catalog = s.catalog) (hmutable : s'.mutableList = s.mutableList)
    (hreadOnly : s'.readOnlyList = s.readOnlyList) : s'.Sized := by
  refine h.congr (fun w x hx => ⟨w, x, hcatalog ▸ hx, rfl, fun _ => id⟩) fun kind => ?_
  cases kind
  · exact congrArg CopyList.totalBytes hmutable
  · exact congrArg CopyList.totalBytes hreadOnly

/-- The offset `n` of a field of an object lies below `e.size`, at a word. -/
theorem offset_lt (h : s.Sized) {w : Word} {e : SourceEntry} (he : s.catalog.get? w = some e)
    {l : CopyList} {n : Nat} (hn : n ∈ l.pointerOffsets e) : 8 ∣ n ∧ n < e.size := by
  unfold CopyList.pointerOffsets at hn
  cases hb : e.bits? with
  | none => rw [hb] at hn; cases hn
  | some b =>
    rw [hb] at hn
    obtain ⟨i, hi, rfl⟩ := List.mem_map.1 hn
    obtain ⟨hlow, hhigh, -⟩ := Ledger.mem_onesIn.1 hi
    have hspan := h.bits w e b he hb
    unfold wordBytes at *
    exact ⟨Nat.dvd_mul_left .., by omega⟩

end Sized

/-- What may be marked anew: words that are allocated, and reserved words of `hand'`. -/
theorem Inside.step {hand hand' : Nat → Prop} {o o' : Output} (h : Inside hand s)
    (hhand : ∀ i, hand i → hand' i) (hs : s'.Sound) (hhost : s'.host = s.host) (hsized : s'.Sized)
    (ho : s.output? = some o) (ho' : s'.output? = some o') (htop : o.arena.top ≤ o'.arena.top)
    (hlength : o'.buffer.length = o.buffer.length)
    (hmarks : ∀ i, o'.pointers.has i = true → o.pointers.has i = true ∨
      (hand' i ∧ wordBytes * (i + 1) ≤ o'.buffer.length) ∨ wordBytes * (i + 1) ≤ o'.arena.top) :
    Inside hand' s' := by
  refine ⟨hs, by rw [hhost]; exact h.host, hsized, fun x hx i hi => ?_⟩
  obtain rfl := Option.some_inj.1 (ho'.symm.trans hx)
  have hf := hs.filled o' ho'
  have hroom := hf.arena.top_le_length
  have hlen := hf.length
  rcases hmarks i hi with hold | ⟨hby, hin⟩ | hin
  · obtain ⟨hin, hwhere⟩ := h.marks o ho i hold
    exact ⟨by omega, hwhere.imp (hhand i) fun hle => by omega⟩
  · exact ⟨hin, Or.inl hby⟩
  · exact ⟨by omega, Or.inr hin⟩

/-- A step from `s` to `s'` by which nothing is marked by hand. -/
theorem Inside.keep {hand : Nat → Prop} {o o' : Output} (h : Inside hand s) (hs : s'.Sound)
    (hhost : s'.host = s.host) (hsized : s'.Sized) (ho : s.output? = some o)
    (ho' : s'.output? = some o') (htop : o.arena.top ≤ o'.arena.top)
    (hlength : o'.buffer.length = o.buffer.length) (hmarks : ∀ i, o'.pointers.has i = true →
      o.pointers.has i = true ∨ wordBytes * (i + 1) ≤ o'.arena.top) : Inside hand s' :=
  h.step (fun _ => id) hs hhost hsized ho ho' htop hlength fun i hi => (hmarks i hi).imp_right Or.inr

theorem Inside.enter {hand : Nat → Prop} (h : Inside hand s) {t : Stage} (hs : Session.Sound { s with stage := t }) :
    Inside hand { s with stage := t } :=
  ⟨hs, h.host, h.sized.frame rfl rfl rfl, h.marks⟩

/-- Words that are covered in part by `size` bytes below a multiple of eight end there. -/
theorem slot_le_of_lt {j top : Nat} (offset size : Nat) (hsize : 0 < size) (hj : wordBytes * j = offset)
    (hroom : offset + size ≤ top) (htop : 8 ∣ top) : wordBytes * (j + 1) ≤ top := by
  unfold wordBytes at *
  omega

end Session

namespace CopyList

/-- The total with `size` more bytes stays in whole words, or at the largest byte count. -/
theorem bytesWith_words (l : CopyList) (size : Nat) :
    8 ∣ l.bytesWith size ∨ l.bytesWith size = maxBytes := by
  unfold bytesWith
  cases h : alignUp? (l.totalBytes + size) wordBytes with
  | none => exact Or.inr rfl
  | some r => exact Or.inl (alignUp?_bounds (k := 3) h).2.2

/-- A new object of `size` bytes has no more bits than words. -/
theorem nextBits_span {l : CopyList} (h : 8 ∣ l.totalBytes ∨ l.totalBytes = maxBytes) (size : Nat) :
    wordBytes * (l.nextBits size).stop < wordBytes * (l.nextBits size).start + size + wordBytes := by
  unfold nextBits bytesWith
  dsimp only
  cases hr : alignUp? (l.totalBytes + size) wordBytes with
  | none =>
    have hlarge := alignUp?_eq_none.1 hr
    rw [Option.getD_none]
    unfold maxBytes wordBytes addressLimit at *
    omega
  | some r =>
    obtain ⟨hle, hlt, -⟩ := alignUp?_bounds (k := 3) hr
    rw [Option.getD_some]
    have hlimit := alignUp?_lt (k := 3) hr
    unfold maxBytes wordBytes addressLimit at *
    omega

end CopyList

namespace SessionM

open Session

variable {s s' : Session} {hand : Nat → Prop} {tables : TableProvider}

theorem NoteStep.sized {e : Edge} (hstep : NoteStep s e s') (hkept : s.books.Kept) (h : s.Sized) :
    s'.Sized := by
  refine h.congr (fun w e' he' => ?_) fun kind => ?_
  · obtain ⟨x, flag, hx, rfl⟩ := hstep.entry hkept he'
    exact ⟨w, x, hx, rfl, fun _ => id⟩
  · cases hstep with
    | ignored => rfl
    | marked _ _ _ mark =>
      obtain ⟨_, _, -, -, -, rfl, -⟩ := markField_eq_ok mark
      rw [revised_copyList]
      split
      · rename_i hkind
        rw [← hkind]
      · rfl

theorem EnterStep.sized {e : Edge} {v : Visit} (hstep : EnterStep s e v s') (he : 0 < e.size)
    (h : s.Sized) : s'.Sized := by
  have hfound : (s.foundEntry e).size = e.size := rfl
  cases hstep with
  | replaced =>
    unfold withReplaced
    split
    · exact h
    · exact h.frame rfl rfl rfl
  | known => exact h
  | left =>
    refine ⟨fun w x hx => ?_, fun w x b hx hb => ?_, fun kind => by rw [withEntry_copyList]; exact h.total kind⟩ <;>
      rw [withEntry_catalog, Catalog.get?_put] at hx <;> split at hx
    · cases hx
      exact he
    · exact h.positive w x hx
    · cases hx
      cases hb
    · exact h.bits w x b hx hb
  | accepted =>
    have hspan := CopyList.nextBits_span (h.total (.ofReadOnly (s.foundEntry e).readOnly)) e.size
    refine ⟨fun w x hx => ?_, fun w x b hx hb => ?_, fun kind => ?_⟩
    · rw [enlisted_get?] at hx
      split at hx
      · cases hx
        exact he
      · exact h.positive w x hx
    · rw [enlisted_get?] at hx
      split at hx
      · cases hx
        cases hb
        exact hspan
      · exact h.bits w x b hx hb
    · rw [enlisted_copyList]
      split
      · exact CopyList.bytesWith_words ..
      · exact h.total kind

theorem AliasStep.sized {former substitute : Word} (hstep : AliasStep former substitute s s')
    (h : s.Sized) : s'.Sized := by
  obtain ⟨e, outcome, he, -, -, rfl⟩ := hstep
  refine h.congr (fun w x hx => ?_) fun kind => by cases kind <;> rfl
  change (s.catalog.put (e.standIn former)).get? w = some x at hx
  rw [Catalog.get?_put] at hx
  split at hx
  · cases hx
    exact ⟨_, e, he, rfl, nofun⟩
  · exact ⟨w, x, hx, rfl, fun _ => id⟩

theorem CopyStep.sized {w : Word} (hstep : CopyStep tables w s s') (h : s.Sized) : s'.Sized := by
  obtain ⟨e, o, o', offset, target, catalog, stats, -, he, -, -, -, hget, rfl⟩ := hstep
  refine h.congr (fun v x hx => ?_) fun kind => by cases kind <;> rfl
  rw [hget] at hx
  split at hx
  · cases hx
    exact ⟨w, e, he, rfl, fun _ => id⟩
  · exact ⟨v, x, hx, rfl, fun _ => id⟩

theorem CopyHalt.sized {w : Word} {f : Failure} (hhalt : CopyHalt tables w s f s') (h : s.Sized) :
    s'.Sized := by
  rcases hhalt with ⟨rfl, -⟩ | ⟨e, o, -, -, o', catalog, -, hget, rfl⟩
  · exact h
  · exact h.congr (fun v x hx => ⟨v, x, (hget v).symm.trans hx, rfl, fun _ => id⟩) fun kind => by
      cases kind <;> rfl

theorem Touches.sized (htouch : Touches s s') (h : s.Sized) : s'.Sized := by
  rcases htouch with rfl | ⟨o, o', -, -, rfl⟩
  · exact h
  · exact h.frame rfl rfl rfl

theorem CopyStep.inside {w : Word} (hstep : CopyStep tables w s s') (h : Inside hand s)
    (hs : s'.Sound) : Inside hand s' := by
  have hsized := hstep.sized h.sized
  obtain ⟨e, o, o', offset, target, catalog, stats, ho, he, -, -, hdone, -, rfl⟩ := hstep
  refine h.keep hs rfl hsized ho rfl hdone.grows.top_le hdone.grows.length fun i hi => ?_
  rw [hdone.marks, Bool.or_eq_true, Bool.and_eq_true, decide_eq_true_eq] at hi
  refine hi.imp_right fun hhead => ?_
  exact slot_le_of_lt offset e.size (h.sized.positive w e he)
    (by rw [hhead.1]; exact Nat.mul_div_cancel' hdone.aligned) hdone.high (hs.filled o' rfl).arena.dvd_top

theorem CopyHalt.inside {w : Word} {f : Failure} (hhalt : CopyHalt tables w s f s') (h : Inside hand s) :
    Inside hand s' := by
  have hs := hhalt.sound h.sound
  have hsized := hhalt.sized h.sized
  rcases hhalt with ⟨rfl, -⟩ | ⟨e, o, he, ho, o', catalog, hstop, -, rfl⟩
  · exact h
  · refine h.keep hs rfl hsized ho rfl hstop.grows.top_le hstop.grows.length fun i hi => ?_
    exact (hstop.marks i hi).imp_right fun hroom =>
      slot_le_of_lt _ e.size (h.sized.positive w e he) rfl hroom (hs.filled o' rfl).arena.dvd_top

theorem AliasStep.inside {former substitute : Word} (hstep : AliasStep former substitute s s')
    (h : Inside hand s) (hs : s'.Sound) : Inside hand s' := by
  have hsized := hstep.sized h.sized
  obtain ⟨_, _, -, -, -, rfl⟩ := hstep
  exact ⟨hs, h.host, hsized, h.marks⟩

theorem SwitchStep.inside (hstep : SwitchStep s s') (h : Inside hand s) (hs : s'.Sound) :
    Inside hand s' := by
  obtain ⟨o, arena, ho, harena, rfl⟩ := hstep
  obtain ⟨hc, hc', ha', -, -, htop, -⟩ :=
    Arena.startReadOnly_eq_ok (h.sound.filled o ho).arena harena
  refine h.keep hs rfl (h.sized.frame rfl rfl rfl) ho rfl
    (Nat.le_trans ?_ (ha'.region_top_le hc' .mutable)) rfl fun _ => Or.inl
  unfold Arena.top Arena.currentRegion Arena.region
  rw [hc]
  exact htop

theorem WireStep.inside {l : CopyList} {w : Word} (hstep : WireStep l w s s') (h : Inside hand s) :
    Inside hand s' := by
  have hs := hstep.touches.sound h.sound
  have hsized := hstep.touches.sized h.sized
  obtain ⟨o, e, target, base, n, word, ho, he, htarget, hbase, hn, rfl⟩ := hstep
  have hroom := (Output.SameRoom.refl o).setPointer (base + n) word
  obtain ⟨hplace, hbdvd, -⟩ := Buffer.slotOffset_eq_ok_iff.1 hbase
  obtain ⟨offset, hoffset, -, -, hin⟩ := (h.sound.filled o ho).layout.inside w e target he htarget
  obtain rfl : base = offset := by omega
  obtain ⟨hndvd, hnsize⟩ := h.sized.offset_lt he hn
  refine h.keep hs rfl hsized ho rfl (by rw [hroom.arena]) hroom.length fun i hi => ?_
  rw [Output.has_setPointer, Bool.or_eq_true, Bool.and_eq_true, decide_eq_true_eq] at hi
  refine hi.imp_right fun hslot => ?_
  rw [hroom.arena]
  exact slot_le_of_lt (base + n) (e.size - n) (by omega)
    (by rw [hslot.1]; exact Nat.mul_div_cancel' (Nat.dvd_add hbdvd hndvd)) (by omega)
    (h.sound.filled o ho).arena.dvd_top

/-- Gathering from `roots` puts nothing into the buffer. -/
theorem keeps_inside_gather (roots : List Word) : Keeps (Inside hand) (gather roots) := by
  intro r h
  let P (s : Session) : Prop := s.host.Sized ∧ s.books.Kept ∧ s.Sized ∧ s.output? = r.session.output?
  have hP : P r.session := ⟨h.host, h.sound.books, h.sized, rfl⟩
  have hseeds : ∀ s', SeedChange r.session s' → P s' := by
    rintro _ ⟨_, _, _, rfl⟩
    exact ⟨h.host, h.sound.books, h.sized.frame rfl rfl rfl, rfl⟩
  have hkeeps : Triple (· = r.session) (gather roots) (fun _ => P) (fun _ => P) := by
    refine (triple_gather (P := P) (E := fun _ => P) roots (fun _ => hP)
      (fun _ s' hs' => ⟨hseeds s' hs', fun _ => hseeds s' hs'⟩) fun _ s₁ root hs₁ => ?_).conseq
      (fun _ hs => hs) ?_ fun _ _ hs => hs
    · have hhost := (hseeds s₁ hs₁).1
      refine Host.keeps_visit_among (A := fun e => 0 < e.size) (fun e he => ?_) fun e => hhost.root root e
      rintro r' ⟨hsized, hkept, hs, hout⟩
      have hnoted : ∀ s₂, NoteStep r'.session e s₂ → P s₂ := fun s₂ hnote =>
        ⟨by rw [hnote.frame]; exact hsized, hnote.kept hkept, hnote.sized hkept hs,
          by rw [hnote.frame]; exact hout⟩
      refine (triple_registerEdge r'.session e).use rfl ?_ ?_
      · rintro v r₂ ⟨s₂, hnote, henter⟩
        obtain ⟨hsized₂, hkept₂, hs₂, hout₂⟩ := hnoted s₂ hnote
        exact ⟨⟨by rw [henter.frame]; exact hsized₂, henter.kept hkept₂, henter.sized he hs₂,
          by rw [henter.frame]; exact hout₂⟩, fun _ => hhost.held e.pointee⟩
      · rintro f r₂ (⟨hsame, -⟩ | ⟨hnote, -⟩)
        · rw [hsame]
          exact ⟨hsized, hkept, hs, hout⟩
        · exact hnoted _ hnote
    · rintro _ _ ⟨-, s₁, ⟨hsized, hkept, hs, hout⟩, rfl⟩
      exact ⟨hsized, hkept, hs.frame rfl rfl rfl, hout⟩
  have hinside : ∀ s', s'.Sound → P s' → Inside hand s' := fun s' hs ⟨hhost, _, hsized, hout⟩ =>
    ⟨hs, hhost, hsized, fun o ho => h.marks o (hout ▸ ho)⟩
  exact ((keeps_gather roots).and hkeeps).use ⟨h.sound, rfl⟩ (fun _ r' h' => hinside _ h'.1 h'.2)
    fun _ r' h' => hinside _ h'.1 h'.2

theorem keeps_inside_reserveBuffer (a : Advisories) : Keeps (Inside hand) (reserveBuffer a) := by
  intro r h
  refine (triple_reserveBuffer h.sound.settings a).use rfl ?_ fun _ r' h' => by rw [h']; exact h
  rintro _ r' ⟨hstage, o, hfresh, hr'⟩
  rw [hr']
  refine ⟨hfresh.sound h.sound hstage, h.host, h.sized.frame rfl rfl rfl, fun o' ho' i hi => ?_⟩
  cases ho'
  rw [hfresh.marks] at hi
  cases hi

theorem keeps_inside_allocateOther (n : Nat) : Keeps (Inside hand) (allocateOther n) := by
  intro r h
  refine ((keeps_allocateOther n).and (triple_allocateOther h.sound.arenas n)).use ⟨h.sound, rfl⟩ ?_
    fun _ r' h' => by rw [h'.2.1]; exact h
  rintro _ r' ⟨hs, -, o, t, stats, ho, -, -, hlow, -, -, hr'⟩
  rw [hr'] at hs ⊢
  refine h.keep hs rfl (h.sized.frame rfl rfl rfl) ho rfl ?_ rfl fun _ => Or.inl
  dsimp only
  rw [Arena.top_advance]
  omega

/-- The word that an operation marks, if any, is at `slot` and is in `hand'`. -/
theorem inside_slotStep {slot : Addr .buffer} {hand' : Nat → Prop} (h : Inside hand s)
    (hstep : SlotStep slot s s') (hhand : ∀ i, hand i → hand' i)
    (hslot : ∀ o i, s.output? = some o → o.buffer.slotOffset slot = .ok (i * wordBytes) → hand' i) :
    Inside hand' s' := by
  obtain ⟨o, o', n, ho, hn, hchange, rfl⟩ := hstep
  have htouch : Touches s { s with output? := some o' } := Or.inr ⟨o, o', ho, hchange.room, rfl⟩
  refine h.step hhand (htouch.sound h.sound) rfl (htouch.sized h.sized) ho rfl
    (by rw [hchange.room.arena]) hchange.room.length fun i hi => ?_
  by_cases hin : i = n / wordBytes
  · obtain ⟨-, hdvd, hlength⟩ := Buffer.slotOffset_eq_ok_iff.1 hn
    have hplace : i * wordBytes = n := by rw [hin]; exact Nat.div_mul_cancel hdvd
    refine Or.inr (Or.inl ⟨hslot o i ho (hplace ▸ hn), ?_⟩)
    rw [hchange.room.length]
    unfold wordBytes at *
    omega
  · rw [hchange.marks i hin] at hi
    exact Or.inl hi

/-- The operation `m` marks nothing, or fails and changes nothing. -/
theorem keeps_inside_unmarking {m : SessionM Unit} (hm : ∀ s, Triple (· = s) m
    (fun _ s' => ∃ o o', s.output? = some o ∧ o.SameRoom o' ∧
      (∀ i, o'.pointers.has i = true → o.pointers.has i = true) ∧ s' = { s with output? := some o' })
    (fun _ s' => s' = s)) : Keeps (Inside hand) m := by
  intro r h
  refine (hm r.session).use rfl ?_ fun _ r' h' => by rw [h']; exact h
  rintro _ r' ⟨o, o', ho, hroom, hmarks, hr'⟩
  rw [hr']
  have htouch : Touches r.session { r.session with output? := some o' } := Or.inr ⟨o, o', ho, hroom, rfl⟩
  exact h.keep (htouch.sound h.sound) rfl (htouch.sized h.sized) ho rfl (by rw [hroom.arena]) hroom.length
    fun i hi => Or.inl (hmarks i hi)

theorem keeps_inside_writeWord (slot : Addr .buffer) (w : Word) :
    Keeps (Inside hand) (writeWord slot w) := by
  refine keeps_inside_unmarking fun s => triple_at _ slot fun o n ho _ => ?_
  rintro r rfl
  rw [wp_changeOutput, ho]
  exact ⟨o, o.write n w, rfl, (Output.SameRoom.refl o).write n w, fun _ => id, rfl⟩

theorem keeps_inside_clearPointer (slot : Addr .buffer) : Keeps (Inside hand) (clearPointer slot) := by
  refine keeps_inside_unmarking fun s => triple_at _ slot fun o n ho _ => ?_
  rintro r rfl
  rw [wp_bind, wp_ofViolation]
  cases hc : o.clear n with
  | error v => rfl
  | ok o' =>
    refine ⟨o, o', ho, (Output.SameRoom.refl o).clear hc, fun i hi => ?_, rfl⟩
    obtain rfl := clear_eq_ok hc
    have herased : (o.pointers.erase (n / wordBytes)).has i = true := hi
    rw [Ledger.has_erase, Bool.and_eq_true] at herased
    exact herased.1

theorem Metered.inside (hmeter : Metered s s') (h : Inside hand s) : Inside hand s' := by
  have hs := hmeter.touches.sound h.sound
  have hsized := hmeter.touches.sized h.sized
  obtain ⟨o, ho, rfl⟩ := hmeter
  exact h.keep hs rfl hsized ho rfl (Nat.le_refl _) rfl fun _ => Or.inl

theorem keeps_inside_verifyEstimate (estimate : Nat) (label : String) :
    Keeps (Inside hand) (verifyEstimate estimate label) :=
  fun r h => (triple_verifyEstimate estimate label).use rfl (fun _ _ h' => h'.inside h) fun _ _ h' => by
    rw [h'.1]
    exact h

theorem keeps_inside_copyMutable : Keeps (Inside hand) (copyMutable tables) := by
  refine Keeps.ofStage ((triple_copyMutable (C := fun _ => Inside hand) (F := fun _ => Inside hand)
    (fun _ _ _ _ _ hC hstep hnext => hstep.inside hC hnext.sound)
    fun _ _ _ _ _ _ hC hhalt => hhalt.inside hC).conseq (fun _ hs => ⟨hs.1.sound, hs.2, hs.1⟩) ?_
    fun _ _ hs => hs.2.2)
  rintro _ s ⟨s₁, -, hC, rfl, hs⟩
  exact hC.enter hs

theorem keeps_inside_copyReadOnly : Keeps (Inside hand) (copyReadOnly tables) := by
  refine Keeps.ofStage ((triple_copyReadOnly (B := Inside hand) (C := fun _ => Inside hand)
    (F := fun _ => Inside hand) (fun _ _ hB _ => hB)
    (fun _ _ hs hstage hC hstep => hstep.inside hC (hstep.copying hs hstage).sound)
    (fun _ _ _ _ _ hC hstep hnext => hstep.inside hC hnext.sound)
    (fun _ _ _ _ _ _ hC hhalt => hhalt.inside hC)
    (fun _ _ _ _ hsettling _ _ hstep =>
      hstep.inside hsettling.2.2.2.2.2 (hstep.sound hsettling.1 hsettling.2.2.1))
    (fun _ _ hC hmeter => hmeter.inside hC) fun _ _ hC _ => hC).conseq
    (fun _ hs => ⟨hs.1.sound, hs.2, hs.1⟩) ?_ fun _ _ hs => hs.2.2)
  rintro _ s ⟨s₁, -, hC, rfl, hs⟩
  exact hC.enter hs

theorem keeps_inside_recordReplaced (former substitute : Word) :
    Keeps (Inside hand) (recordReplaced former substitute) := by
  intro r h
  refine ((keeps_recordReplaced former substitute).and
    (triple_recordReplaced r.session former substitute)).use ⟨h.sound, rfl⟩
    (fun _ _ h' => h'.2.2.inside h h'.1) fun _ r' h' => by rw [h'.2]; exact h

theorem keeps_inside_wire : Keeps (Inside hand) wire := by
  refine Keeps.ofStage ((triple_wire_stage (C := Inside hand)
    fun _ _ _ _ _ hC hstep => hstep.inside hC).conseq (fun _ hs => ⟨hs.1.sound, hs.2, hs.1⟩) ?_
    fun _ _ hs => hs.2.2)
  rintro _ s ⟨s₁, hC, rfl, hs⟩
  exact hC.enter hs

/-- The final pass drops marks and makes none. -/
theorem keeps_inside_relocate : Keeps (Inside hand) relocate := by
  refine Keeps.ofStage (t := .wired) fun r hr => ?_
  obtain ⟨h, hstage⟩ := hr
  have hrank : 4 ≤ r.session.stage.rank := by rw [hstage]; decide
  obtain ⟨o, ho⟩ := Sound.output_of_rank h.sound (Nat.le_trans (by decide) hrank)
  have hf := h.sound.filled o ho
  have htop := hf.arena.top_le_pack (hf.switched hrank)
  refine (keeps_relocate.and (triple_relocate_halted h.sound ho hstage)).use ⟨h.sound, rfl⟩ ?_ ?_
  · rintro _ r' ⟨hs, o', hland, hr'⟩
    rw [hr'] at hs ⊢
    refine h.keep hs rfl (h.sized.frame rfl rfl rfl) ho rfl (by rw [hland.arena]; exact htop)
      hland.length fun i hi => ?_
    rw [hland.marks, Bool.and_eq_true] at hi
    exact Or.inl hi.1
  · rintro _ r' ⟨hs, i, o', hhalt, -, hr'⟩
    rw [hr'] at hs ⊢
    obtain ⟨top?, hroom⟩ := hhalt.room
    exact h.keep hs rfl (h.sized.frame rfl rfl rfl) ho rfl (by rw [hroom.arena]; exact htop) hroom.length
      fun j hj => Or.inl (hhalt.marks j hj)

end SessionM

namespace Session

variable {s : Session} {hand hand' : Nat → Prop}

theorem Inside.mono (h : Inside hand s) (hhand : ∀ i, s.marked i = true → hand i → hand' i) :
    Inside hand' s := by
  refine ⟨h.sound, h.host, h.sized, fun o ho i hi => ?_⟩
  obtain ⟨hin, hwhere⟩ := h.marks o ho i hi
  refine ⟨hin, hwhere.imp_left (hhand i ?_)⟩
  unfold marked
  rw [ho]
  exact hi

/-- Nothing is marked in a session that has just begun. -/
theorem inside_begin {host : Host} {reservations : Reservations} {settings : Settings}
    {mapped? : Option (AddrRange .mapped)} {alive : Bool} (hhost : host.Sized)
    (h : begin host reservations settings mapped? alive = .ok s) : Inside hand s := by
  have hs := sound_begin h
  obtain ⟨-, d?, -, rfl⟩ := begin_eq_ok h
  refine ⟨hs, hhost, ⟨fun w e he => ?_, fun w e b he => ?_, fun kind => ?_⟩, nofun⟩
  · exact nomatch (Catalog.get?_empty w).symm.trans he
  · exact nomatch (Catalog.get?_empty w).symm.trans he
  · cases kind <;> exact Or.inl (Nat.dvd_zero _)

end Session

namespace Call

variable {s : Session} {hand : Nat → Prop}

/-- A call `c` that marks `slot` by hand and is answered marks it so. -/
theorem inside_byHand {c : Call} {slot : Addr .buffer} (hslot : c.marksSlot? = some slot)
    (hrun : Slotting slot s c.run) (h : s.Inside hand) :
    (c.after s).Inside fun i => hand i ∨ c.marks s i = true := by
  unfold after
  obtain ⟨_, hok, hstep⟩ | ⟨_, -, hsame⟩ := hrun.perform rfl
  · refine inside_slotStep h hstep (fun _ => Or.inl) fun o i ho hn => Or.inr ?_
    unfold marks
    rw [hok, hslot, ho, Option.any_some, Option.any_some, hn]
    exact beq_self_eq_true _
  · rw [hsame]
    exact h.mono fun _ _ => Or.inl

theorem slotting_run {c : Call} {slot : Addr .buffer} (h : c.marksSlot? = some slot) :
    Slotting slot s c.run := by
  cases c <;> cases h
  · exact slotting_markPointer slot
  · exact slotting_setPointer slot _
  · exact slotting_writePointer slot _

theorem keeps_inside_run : ∀ c : Call, c.marksSlot? = none → Keeps (Session.Inside hand) c.run
  | gather roots, _ => keeps_inside_gather roots
  | reserveBuffer advisories, _ => keeps_inside_reserveBuffer advisories
  | allocateOther bytes, _ => (keeps_inside_allocateOther bytes).bind fun _ _ h => h
  | writeWord slot w, _ => keeps_inside_writeWord slot w
  | verifyEstimate estimate label, _ => keeps_inside_verifyEstimate estimate label
  | copyMutable _, _ => keeps_inside_copyMutable
  | copyReadOnly _, _ => keeps_inside_copyReadOnly
  | recordReplaced former substitute, _ => keeps_inside_recordReplaced former substitute
  | clearPointer slot, _ => keeps_inside_clearPointer slot
  | wire, _ => keeps_inside_wire
  | relocate, _ => keeps_inside_relocate

/-- A call `c` marks words of what is allocated, and the word that it marks by hand. -/
theorem inside_after (c : Call) (h : s.Inside hand) :
    (c.after s).Inside fun i => hand i ∨ c.marks s i = true := by
  cases hslot : c.marksSlot? with
  | none => exact (after_of_keeps (c.keeps_inside_run hslot) h).mono fun _ _ => Or.inl
  | some slot => exact inside_byHand hslot (slotting_run hslot) h

end Call

namespace Session

variable {s : Session} {hand : Nat → Bool}

/-- What was marked by hand accounts for all marks past the top, after any `calls`. -/
theorem Inside.afterCalls (h : s.Inside (hand · = true)) (calls : List Call) :
    (s.afterCalls calls).Inside (s.markedByHand hand calls · = true) := by
  induction calls generalizing s hand with
  | nil => exact h
  | cons c rest ih =>
    refine ih ((c.inside_after h).mono fun i hmarked hby => ?_)
    rw [hmarked, Bool.true_and, Bool.or_eq_true]
    exact hby

/-- A word `i` that was marked by hand, and was not dropped since, is marked. -/
theorem marked_of_markedByHand (h : ∀ i, hand i = true → s.marked i = true) (calls : List Call) {i : Nat}
    (hi : s.markedByHand hand calls i = true) : (s.afterCalls calls).marked i = true := by
  induction calls generalizing s hand with
  | nil => exact h i hi
  | cons c rest ih => exact ih (fun j hj => (Bool.and_eq_true_iff.1 hj).1) hi

/-- The words that an archive `a` marks after any `calls` were all reserved. Past the end of the
    archive, a word is marked exactly if it was marked by hand. So the marks stay in the archive
    exactly if no word past its end was marked by hand. -/
theorem archive_marks_within_iff {host : Host} {reservations : Reservations} {settings : Settings}
    {mapped? : Option (AddrRange .mapped)} {alive : Bool} (hhost : host.Sized)
    (hbegin : begin host reservations settings mapped? alive = .ok s) (calls : List Call) {a : Archive}
    (harchive : (s.afterCalls calls).archive? = some a) :
    (∀ i, a.pointers.has i = true → wordBytes * (i + 1) ≤ a.buffer.length) ∧
    (∀ i, a.length < wordBytes * (i + 1) →
      a.pointers.has i = s.markedByHand (fun _ => false) calls i) ∧
    ((∀ i, a.pointers.has i = true → wordBytes * (i + 1) ≤ a.length) ↔
      ∀ i, s.markedByHand (fun _ => false) calls i = true → wordBytes * (i + 1) ≤ a.length) := by
  have hstart : s.Inside fun _ => false = true := inside_begin hhost hbegin
  have hinside : (s.afterCalls calls).Inside (s.markedByHand (fun _ => false) calls · = true) :=
    hstart.afterCalls calls
  obtain ⟨hstage, o, requested, ho, rfl⟩ := archive?_eq_some harchive
  have hf := hinside.sound.filled o ho
  have htop := hf.arena.used_eq_top (hf.switched (by rw [hstage]; decide))
  unfold Archive.length
  dsimp only
  rw [htop]
  have hby {i : Nat} (hi : s.markedByHand (fun _ => false) calls i = true) : o.pointers.has i = true := by
    have hwas := @marked_of_markedByHand s (fun _ => false) (fun _ h => nomatch h) calls i hi
    unfold marked at hwas
    rw [ho] at hwas
    exact hwas
  have hwhere {i : Nat} (hi : o.pointers.has i = true) := (hinside.marks o ho i hi).2
  refine ⟨fun i hi => (hinside.marks o ho i hi).1, fun i hpast => ?_, fun h i hi => h i (hby hi),
    fun h i hi => (hwhere hi).elim (h i) id⟩
  exact Bool.eq_iff_iff.2 ⟨fun hi => (hwhere hi).resolve_right (Nat.not_le.2 hpast), hby⟩

end Session

/-- The objects of `h` have words. -/
theorem Heap.Sound.sized {h : Heap} (hs : h.Sound) : h.toHost.Sized := by
  have hsize {a : Word} {o : HeapObject} (ho : h.object? a = some o) : 0 < o.size :=
    Nat.mul_pos (hs.filled a o ho) (by decide)
  refine ⟨fun a e he => ?_, fun w es hok e he => ?_⟩
  · obtain ⟨o, ho, rfl⟩ := Option.map_eq_some_iff.1 he
    exact hsize ho
  · obtain ⟨_, -, -, t, ht, -, hsizes⟩ := Heap.holds_of_mem_edges hok he
    rw [hsizes]
    exact hsize ht

namespace Session

/-- A heap of one object. -/
def loneHeap : Heap := (Heap.create 0x100000000000 0).afterCalls [.alloc .other 1 none]

theorem loneHeap_made : loneHeap.Made := (Heap.Made.create (by decide) (by decide)).afterCalls _

/-- A session over one object. -/
def loneFresh : Session :=
  fresh loneHeap.toHost ⟨⟨0x20000⟩, 0x1000, room_fits⟩ ⟨0x8000, 64, 0, false⟩ none

/-- The last word that was reserved is marked by hand. -/
def tailCalls : List Call :=
  [.gather [0x100000000000], .reserveBuffer ⟨0, 0, 0⟩, .copyMutable noTables, .copyReadOnly noTables,
    .wire, .setPointer ⟨0x200b8⟩ ⟨0x20000⟩, .relocate]

/-- The archive of that session. -/
def tailArchive : Archive := (loneFresh.afterCalls tailCalls).archive?.get (by decide +kernel)

/-- An archive of 64 bytes, of which word `23` is marked. -/
theorem archive_marks_within_iff_tail :
    begin loneHeap.toHost ⟨⟨0x20000⟩, 0x1000, room_fits⟩ ⟨0x8000, 64, 0, false⟩ none false =
      .ok loneFresh ∧
    (loneFresh.afterCalls tailCalls).archive? = some tailArchive ∧ tailArchive.length = 64 ∧
    tailArchive.pointers.has 23 = true ∧
    ¬∀ i, tailArchive.pointers.has i = true → wordBytes * (i + 1) ≤ tailArchive.length := by
  have hbegin : begin loneHeap.toHost ⟨⟨0x20000⟩, 0x1000, room_fits⟩ ⟨0x8000, 64, 0, false⟩ none false =
      .ok loneFresh := begin_fresh (by decide +kernel)
  have harchive : (loneFresh.afterCalls tailCalls).archive? = some tailArchive := (Option.some_get _).symm
  have hlength : tailArchive.length = 64 := by decide +kernel
  have hhand : loneFresh.markedByHand (fun _ => false) tailCalls 23 = true := by decide +kernel
  obtain ⟨-, hpast, hwithin⟩ := archive_marks_within_iff loneHeap_made.sound.sized hbegin tailCalls harchive
  refine ⟨hbegin, harchive, hlength, ?_, fun h => ?_⟩
  · rw [hpast 23 (by rw [hlength]; decide), hhand]
  · exact absurd (hwithin.1 h 23 hhand) (by rw [hlength]; decide)

end Session

end SnapshotArchive
