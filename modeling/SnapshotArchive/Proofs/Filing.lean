import Mathlib.Data.List.Pairwise
import Mathlib.Tactic.Common
import SnapshotArchive.Proofs.Books
import SnapshotArchive.Proofs.LedgerOrder
import SnapshotArchive.Proofs.Rounding

/-!
The ledgers of the lists. The objects of a list have their bits one after the other, each as many as it
has words, and bits are set only among those of some object. So noting a field of one object never shows
in another.
-/

namespace SnapshotArchive

namespace CopyList

/-- The ledger of `l` notes a pointer in word `i` of the object of `e`. -/
def Notes (l : CopyList) (e : SourceEntry) (i : Nat) : Prop :=
  ∃ bits, e.bits? = some bits ∧ bits.start + i < bits.stop ∧ l.ledger.has (bits.start + i) = true

/-- The offsets of the pointers of `e` are `i * wordBytes` for its noted words `i`. -/
theorem mem_pointerOffsets {l : CopyList} {e : SourceEntry} {n : Nat} :
    n ∈ l.pointerOffsets e ↔ ∃ i, l.Notes e i ∧ n = i * wordBytes := by
  unfold pointerOffsets Notes
  cases e.bits? with
  | none => simp
  | some bits =>
    simp only [List.mem_map, Ledger.mem_onesIn]
    constructor
    · rintro ⟨b, ⟨hlow, hhigh, hset⟩, rfl⟩
      have hb : bits.start + (b - bits.start) = b := by omega
      exact ⟨b - bits.start, ⟨bits, rfl, by omega, by rw [hb]; exact hset⟩, rfl⟩
    · rintro ⟨i, ⟨bits', hbits, hlt, hset⟩, rfl⟩
      cases hbits
      exact ⟨bits.start + i, ⟨Nat.le_add_right .., hlt, hset⟩, by rw [Nat.add_sub_cancel_left]⟩

theorem pairwise_pointerOffsets (l : CopyList) (e : SourceEntry) :
    (l.pointerOffsets e).Pairwise (· < ·) := by
  unfold pointerOffsets
  cases e.bits? with
  | none => exact List.Pairwise.nil
  | some bits =>
    refine List.pairwise_map.2 ((l.ledger.pairwise_onesIn bits.start bits.stop).imp_of_mem ?_)
    intro b b' hb hb' hlt
    have := (Ledger.mem_onesIn.1 hb).1
    have := (Ledger.mem_onesIn.1 hb').1
    unfold wordBytes
    omega

theorem nodup_pointerOffsets (l : CopyList) (e : SourceEntry) : (l.pointerOffsets e).Nodup :=
  (pairwise_pointerOffsets l e).imp Nat.ne_of_lt

/-- A `field` at offset `n` is a word of the object of `e`. -/
theorem fieldOffset?_eq_some {e : SourceEntry} {field : Word} {n : Nat}
    (h : fieldOffset? e field = some n) :
    field.toNat = e.source.toNat + n ∧ 8 ∣ n ∧ n / wordBytes < e.size / wordBytes := by
  unfold fieldOffset? at h
  dsimp only at h
  split at h
  · rename_i hc
    obtain ⟨hle, haligned, hend⟩ := hc
    cases h
    rw [isAligned_word] at haligned
    unfold wordBytes at *
    exact ⟨by omega, haligned, by omega⟩
  · cases h

end CopyList

/-- The objects of `l` have bits one after the other, and bits are set only there. -/
structure Filed (c : Catalog) (l : CopyList) : Prop where
  words : 8 ∣ l.totalBytes
  bits : ∀ w ∈ l.sources.toList, ∃ e bits, c.get? w = some e ∧ e.bits? = some bits ∧
    bits.stop = bits.start + e.size / wordBytes ∧ wordBytes * bits.stop ≤ l.totalBytes
  apart : l.sources.toList.Pairwise fun v w => ∀ e e' bits bits', c.get? v = some e →
    c.get? w = some e' → e.bits? = some bits → e'.bits? = some bits' → bits.stop ≤ bits'.start
  room : l.totalBytes ≤ wordBytes * l.ledger.len
  marked : ∀ i, l.ledger.has i = true → wordBytes * i < l.totalBytes

namespace Filed

variable {c c' : Catalog} {l : CopyList}

theorem empty (c : Catalog) : Filed c .empty where
  words := ⟨0, rfl⟩
  bits w hw := by cases hw
  apart := List.Pairwise.nil
  room := Nat.zero_le _
  marked i hi := by rw [show CopyList.empty.ledger = .empty from rfl, Ledger.has_empty] at hi; cases hi

/-- Only `bits?` and `size` of entries count. -/
theorem congr (h : Filed c l) (hc : ∀ w ∈ l.sources.toList, ∀ e, c.get? w = some e →
    ∃ e', c'.get? w = some e' ∧ e'.bits? = e.bits? ∧ e'.size = e.size) : Filed c' l where
  words := h.words
  bits w hw := by
    obtain ⟨e, bits, he, hbits, hrest⟩ := h.bits w hw
    obtain ⟨e', he', hbits', hsize⟩ := hc w hw e he
    exact ⟨e', bits, he', hbits'.trans hbits, by rw [hsize]; exact hrest⟩
  apart := by
    refine h.apart.imp_of_mem ?_
    intro v w hv hw hvw e e' bits bits' he he' hbits hbits'
    obtain ⟨x, -, hx, -⟩ := h.bits v hv
    obtain ⟨y, -, hy, -⟩ := h.bits w hw
    obtain ⟨x', hx', hxbits, -⟩ := hc v hv x hx
    obtain ⟨y', hy', hybits, -⟩ := hc w hw y hy
    obtain rfl : x' = e := Option.some_inj.1 (hx'.symm.trans he)
    obtain rfl : y' = e' := Option.some_inj.1 (hy'.symm.trans he')
    exact hvw x y bits bits' hx hy (hxbits.symm.trans hbits) (hybits.symm.trans hbits')
  room := h.room
  marked := h.marked

/-- One more bit `b` among those of the objects keeps a list filed. -/
theorem insert (h : Filed c l) {b : Nat} (hb : wordBytes * b < l.totalBytes) :
    Filed c { l with ledger := l.ledger.insert b } where
  words := h.words
  bits := h.bits
  apart := h.apart
  room := by rw [Ledger.len_insert]; exact h.room
  marked i hi := by
    have hlen : b < l.ledger.len := by
      have := h.room
      unfold wordBytes at *
      omega
    change (l.ledger.insert b).has i = true at hi
    rw [Ledger.has_insert _ hlen, Bool.or_eq_true, decide_eq_true_eq] at hi
    rcases hi with hi | rfl
    · exact h.marked i hi
    · exact hb

/-- Different objects `v` and `w` of a list have different bits. -/
theorem disjoint (h : Filed c l) {v w : Word} (hv : v ∈ l.sources.toList) (hw : w ∈ l.sources.toList)
    (hne : v ≠ w) {e e' : SourceEntry} {bits bits' : BitRange} (he : c.get? v = some e)
    (he' : c.get? w = some e') (hbits : e.bits? = some bits) (hbits' : e'.bits? = some bits') :
    bits.stop ≤ bits'.start ∨ bits'.stop ≤ bits.start := by
  let Apart (v w : Word) : Prop := ∀ e e' bits bits', c.get? v = some e → c.get? w = some e' →
    e.bits? = some bits → e'.bits? = some bits' → bits.stop ≤ bits'.start ∨ bits'.stop ≤ bits.start
  have hsymm : Std.Symm Apart := ⟨fun v w hvw e e' b b' h₁ h₂ h₃ h₄ => (hvw e' e b' b h₂ h₁ h₄ h₃).symm⟩
  have hpairs : l.sources.toList.Pairwise Apart :=
    h.apart.imp fun hvw e e' b b' h₁ h₂ h₃ h₄ => Or.inl (hvw e e' b b' h₁ h₂ h₃ h₄)
  exact hpairs.forall hv hw hne e e' bits bits' he he' hbits hbits'

theorem bytesWith_eq (h : Filed c l) {size : Nat} (hsize : 8 ∣ size)
    (hroom : l.totalBytes + size + 7 < addressLimit) : l.bytesWith size = l.totalBytes + size := by
  have hwords := h.words
  have hup := (alignUp?_eq_some (v := l.totalBytes + size) (k := 3)).2 ⟨hroom, rfl⟩
  unfold CopyList.bytesWith
  change (alignUp? _ (2 ^ 3)).getD _ = _
  rw [hup]
  exact alignUp?_of_dvd (Nat.dvd_add hwords hsize) hup

/-- A bit of the object at `w` does not show in another object `v`. -/
theorem notes_insert (h : Filed c l) {v w : Word} {x y : SourceEntry} {bits : BitRange} {j : Nat}
    (hv : v ∈ l.sources.toList) (hw : w ∈ l.sources.toList) (hx : c.get? v = some x)
    (hy : c.get? w = some y) (hbits : y.bits? = some bits) (hj : j < y.size / wordBytes) (i : Nat) :
    ({ l with ledger := l.ledger.insert (bits.start + j) } : CopyList).Notes x i ↔
      l.Notes x i ∨ v = w ∧ i = j := by
  obtain ⟨x', b, hx', hb, -, -⟩ := h.bits v hv
  obtain rfl : x = x' := Option.some_inj.1 (hx.symm.trans hx')
  obtain ⟨y', b', hy', hb', hstop, hle⟩ := h.bits w hw
  obtain rfl : y = y' := Option.some_inj.1 (hy.symm.trans hy')
  obtain rfl : bits = b' := Option.some_inj.1 (hbits.symm.trans hb')
  have hlen : bits.start + j < l.ledger.len := by
    have := h.room
    unfold wordBytes at *
    omega
  unfold CopyList.Notes
  simp only [hb, Option.some.injEq, exists_eq_left', Ledger.has_insert _ hlen, Bool.or_eq_true,
    decide_eq_true_eq]
  by_cases hvw : v = w
  · subst hvw
    obtain rfl : x = y := Option.some_inj.1 (hx.symm.trans hy)
    obtain rfl : bits = b := Option.some_inj.1 (hbits.symm.trans hb)
    constructor
    · rintro ⟨hlt, hset | heq⟩
      · exact Or.inl ⟨hlt, hset⟩
      · exact Or.inr ⟨rfl, by omega⟩
    · rintro (⟨hlt, hset⟩ | ⟨-, rfl⟩)
      · exact ⟨hlt, Or.inl hset⟩
      · exact ⟨by omega, Or.inr rfl⟩
  · have hdisjoint := h.disjoint hv hw hvw hx hy hb hbits
    constructor
    · rintro ⟨hlt, hset | heq⟩
      · exact Or.inl ⟨hlt, hset⟩
      · omega
    · rintro (hset | ⟨rfl, -⟩)
      · exact ⟨hset.1, Or.inl hset.2⟩
      · exact absurd rfl hvw

/-- A new object has its bits after all others of `l`. -/
theorem accept (h : Filed c l) {e : SourceEntry} (hnew : e.source ∉ l.sources.toList)
    (hsize : 8 ∣ e.size) (hroom : l.totalBytes + e.size + 7 < addressLimit)
    (hc : ∀ w, c'.get? w = if e.source = w then some (l.listed e) else c.get? w) :
    Filed c' (l.accept e) := by
  have hbytes := h.bytesWith_eq hsize hroom
  have hwords := h.words
  have hold : ∀ w ∈ l.sources.toList, c'.get? w = c.get? w := fun w hw => by
    rw [hc, if_neg]
    rintro rfl
    exact hnew hw
  have hlisted : (l.listed e).bits? =
      some ⟨l.totalBytes / wordBytes, (l.totalBytes + e.size) / wordBytes⟩ := by
    unfold CopyList.listed CopyList.nextBits
    rw [hbytes]
  have htotal : (l.accept e).totalBytes = l.totalBytes + e.size := hbytes
  have hledger : (l.accept e).ledger = l.ledger.reserve ((l.totalBytes + e.size) / wordBytes) := by
    rw [← hbytes]
    rfl
  unfold wordBytes at *
  refine ⟨?_, fun w hw => ?_, ?_, ?_, fun i hi => ?_⟩
  · rw [htotal]
    exact Nat.dvd_add hwords hsize
  · rw [SessionM.sources_accept, List.mem_append] at hw
    rw [htotal]
    rcases hw with hw | hw
    · obtain ⟨x, bits, hx, hbits, hstop, hle⟩ := h.bits w hw
      exact ⟨x, bits, (hold w hw).trans hx, hbits, hstop, by unfold wordBytes at hle ⊢; omega⟩
    · obtain rfl := List.mem_singleton.1 hw
      refine ⟨l.listed e, _, by rw [hc, if_pos rfl], hlisted, ?_, ?_⟩
      · change _ = _ + e.size / wordBytes
        unfold wordBytes
        dsimp only
        omega
      · unfold wordBytes
        dsimp only
        omega
  · rw [SessionM.sources_accept]
    refine List.pairwise_append.2 ⟨h.apart.imp_of_mem ?_, List.pairwise_singleton .., ?_⟩
    · intro v w hv hw hvw
      rw [hold v hv, hold w hw]
      exact hvw
    · intro v hv w hw x y bits bits' hx hy hbits hbits'
      obtain rfl := List.mem_singleton.1 hw
      rw [hold v hv] at hx
      rw [hc, if_pos rfl] at hy
      cases hy
      rw [hlisted] at hbits'
      cases hbits'
      obtain ⟨x', b, hx', hb, -, hle⟩ := h.bits v hv
      obtain rfl : x' = x := Option.some_inj.1 (hx'.symm.trans hx)
      obtain rfl : b = bits := Option.some_inj.1 (hb.symm.trans hbits)
      unfold wordBytes at hle
      dsimp only
      omega
  · have := Ledger.lt_len_reserve l.ledger ((l.totalBytes + e.size) / 8)
    rw [htotal, hledger]
    unfold wordBytes
    omega
  · rw [hledger, Ledger.has_reserve] at hi
    have := h.marked i hi
    rw [htotal]
    unfold wordBytes at *
    omega

end Filed

namespace Session

/-- The session `s` notes a pointer in word `i` of the object at `w`, which is copied. -/
def Notes (s : Session) (w : Word) (i : Nat) : Prop :=
  ∃ e, s.catalog.get? w = some e ∧ e.isCopied = true ∧
    (s.copyList (.ofReadOnly e.readOnly)).Notes e i

/-- The session `s` once word `j` of an `entry` is noted: its bit is set, and the entry has
    pointers. -/
def noted (s : Session) (entry : SourceEntry) (bits : BitRange) (j : Nat) : Session :=
  let kind := RegionKind.ofReadOnly entry.readOnly
  s.revised kind { s.copyList kind with ledger := (s.copyList kind).ledger.insert (bits.start + j) }
    { entry with hasPointers := true }

/-- Both lists of `s` are filed, and no entry stands in for another object. -/
structure WellFiled (s : Session) : Prop where
  plain : ∀ w e, s.catalog.get? w = some e → e.isAlias = false
  filed : ∀ kind, Filed s.catalog (s.copyList kind)

variable {s : Session} {entry : SourceEntry} {bits : BitRange} {j : Nat}

/-- An object `w` that is copied stands on the list of its region. -/
theorem WellFiled.enlisted (h : s.WellFiled) (hkept : s.books.Kept) {w : Word} {x : SourceEntry}
    (hx : s.catalog.get? w = some x) (hcopied : x.isCopied = true) :
    w ∈ (s.copyList (.ofReadOnly x.readOnly)).sources.toList := by
  have hmem := hkept.enlisted w x hx hcopied (h.plain w x hx)
  rwa [SessionM.sources_books] at hmem

theorem get?_noted (s : Session) (entry : SourceEntry) (bits : BitRange) (j : Nat) (w : Word) :
    (s.noted entry bits j).catalog.get? w =
      if entry.source = w then some { entry with hasPointers := true } else s.catalog.get? w := by
  unfold Session.noted
  rw [revised_catalog]
  exact Catalog.get?_put ..

/-- Noting word `j` of `entry` keeps the lists filed. -/
theorem WellFiled.noted (h : s.WellFiled) (hkept : s.books.Kept)
    (found : s.catalog.get? entry.source = some entry) (hcopied : entry.isCopied = true)
    (hbits : entry.bits? = some bits) (hj : j < entry.size / wordBytes) :
    (s.noted entry bits j).WellFiled := by
  refine ⟨fun w x hx => ?_, fun kind => ?_⟩
  · rw [get?_noted] at hx
    split at hx
    · cases hx
      exact h.plain _ entry found
    · exact h.plain w x hx
  · have hcongr : ∀ k, Filed (s.noted entry bits j).catalog (s.copyList k) :=
      fun k => (h.filed k).congr fun w _ x hx => by
        rw [get?_noted]
        split
        · rename_i hw
          rw [hw, hx] at found
          cases found
          exact ⟨_, rfl, rfl, rfl⟩
        · exact ⟨x, hx, rfl, rfl⟩
    unfold Session.noted at hcongr ⊢
    rw [revised_copyList]
    split
    · obtain ⟨x, b, hx, hb, hstop, hle⟩ := (h.filed _).bits _ (h.enlisted hkept found hcopied)
      obtain rfl : entry = x := Option.some_inj.1 (found.symm.trans hx)
      obtain rfl : bits = b := Option.some_inj.1 (hbits.symm.trans hb)
      exact (hcongr _).insert (by unfold wordBytes at *; omega)
    · exact hcongr kind

/-- A word `j` that is noted shows in the list for its object, and for no other `w`. -/
theorem WellFiled.notes_list (h : s.WellFiled) (hkept : s.books.Kept)
    (found : s.catalog.get? entry.source = some entry) (hcopied : entry.isCopied = true)
    (hbits : entry.bits? = some bits) (hj : j < entry.size / wordBytes) {w : Word} {x : SourceEntry}
    (hx : s.catalog.get? w = some x) (hc : x.isCopied = true) (i : Nat) :
    ((s.noted entry bits j).copyList (.ofReadOnly x.readOnly)).Notes x i ↔
      (s.copyList (.ofReadOnly x.readOnly)).Notes x i ∨ w = entry.source ∧ i = j := by
  have hxmem := h.enlisted hkept hx hc
  have hmem := h.enlisted hkept found hcopied
  unfold Session.noted
  rw [revised_copyList]
  split
  · rename_i hk
    rw [← hk] at hxmem ⊢
    exact (h.filed _).notes_insert hxmem hmem hx found hbits hj i
  · rename_i hk
    refine ⟨Or.inl, fun hor => hor.elim id ?_⟩
    rintro ⟨hw, -⟩
    rw [hw, found] at hx
    cases hx
    exact absurd rfl hk

/-- Noting word `j` of `entry` sets its bit and no other. -/
theorem WellFiled.notes_noted (h : s.WellFiled) (hkept : s.books.Kept)
    (found : s.catalog.get? entry.source = some entry) (hcopied : entry.isCopied = true)
    (hbits : entry.bits? = some bits) (hj : j < entry.size / wordBytes) (w : Word) (i : Nat) :
    (s.noted entry bits j).Notes w i ↔ s.Notes w i ∨ w = entry.source ∧ i = j := by
  have hlist := fun x (hx : s.catalog.get? w = some x) hc =>
    h.notes_list hkept found hcopied hbits hj hx hc i
  unfold Session.Notes
  rw [get?_noted]
  by_cases hw : entry.source = w
  · subst hw
    rw [if_pos rfl]
    constructor
    · rintro ⟨x, hx, hc, hn⟩
      cases hx
      exact ((hlist entry found hcopied).1 hn).imp_left fun hn => ⟨entry, found, hcopied, hn⟩
    · intro hor
      refine ⟨_, rfl, hcopied, (hlist entry found hcopied).2 (hor.imp_left ?_)⟩
      rintro ⟨x, hx, -, hn⟩
      obtain rfl : entry = x := Option.some_inj.1 (found.symm.trans hx)
      exact hn
  · rw [if_neg hw]
    constructor
    · rintro ⟨x, hx, hc, hn⟩
      rcases (hlist x hx hc).1 hn with hn | ⟨hsame, -⟩
      · exact Or.inl ⟨x, hx, hc, hn⟩
      · exact absurd hsame.symm hw
    · rintro (⟨x, hx, hc, hn⟩ | ⟨hsame, -⟩)
      · exact ⟨x, hx, hc, (hlist x hx hc).2 (Or.inl hn)⟩
      · exact absurd hsame.symm hw

end Session

namespace SessionM

open Session

variable {s s' : Session} {e : Edge}

/-- The reference `e` lies in word `i` of the object at `w`, which is copied. -/
def LiesIn (s : Session) (e : Edge) (w : Word) (i : Nat) : Prop :=
  ∃ place entry offset, e.origin? = some place ∧ place.enclosing = w ∧
    s.catalog.get? w = some entry ∧ entry.isCopied = true ∧
    CopyList.fieldOffset? entry place.field = some offset ∧ i = offset / wordBytes

/-- What noting the field of `e` does: nothing if the reference lies in no copied object, and
    otherwise it notes the word `j` that the reference lies in. -/
theorem NoteStep.noted_or_ignored (hstep : NoteStep s e s') (hkept : s.books.Kept) :
    (s' = s ∧ ∀ w i, ¬LiesIn s e w i) ∨
      ∃ entry bits j, s.catalog.get? entry.source = some entry ∧ entry.isCopied = true ∧
        entry.bits? = some bits ∧ j < entry.size / wordBytes ∧ s' = s.noted entry bits j ∧
        ∀ w i, LiesIn s e w i ↔ w = entry.source ∧ i = j := by
  cases hstep with
  | ignored hnot =>
    refine .inl ⟨rfl, ?_⟩
    rintro w i ⟨place, entry, offset, horigin, rfl, hfound, hcopied, -⟩
    rw [hnot place horigin entry hfound] at hcopied
    cases hcopied
  | @marked place entry entry' l origin found copied mark =>
    obtain ⟨bits, offset, hbits, hoffset, -, rfl, rfl⟩ := markField_eq_ok mark
    have hsource : entry.source = place.enclosing := hkept.keyed _ _ found
    rw [← hsource] at found
    refine .inr ⟨entry, bits, offset / wordBytes, found, copied, hbits,
      (CopyList.fieldOffset?_eq_some hoffset).2.2, rfl, fun w i => ⟨?_, ?_⟩⟩
    · rintro ⟨place', entry', offset', horigin, rfl, hfound, -, hoff, rfl⟩
      rw [origin] at horigin
      cases horigin
      rw [← hsource, found] at hfound
      cases hfound
      rw [hoffset] at hoff
      cases hoff
      exact ⟨hsource.symm, rfl⟩
    · rintro ⟨rfl, rfl⟩
      exact ⟨place, entry, offset, origin, hsource.symm, found, copied, hoffset, rfl⟩

theorem NoteStep.wellFiled (hstep : NoteStep s e s') (hkept : s.books.Kept) (h : s.WellFiled) :
    s'.WellFiled := by
  obtain ⟨rfl, -⟩ | ⟨entry, bits, j, found, hcopied, hbits, hj, rfl, -⟩ := hstep.noted_or_ignored hkept
  · exact h
  · exact h.noted hkept found hcopied hbits hj

/-- Noting the field of `e` sets the bit of its word and no other. -/
theorem NoteStep.notes_iff (hstep : NoteStep s e s') (hkept : s.books.Kept) (h : s.WellFiled)
    (w : Word) (i : Nat) : s'.Notes w i ↔ s.Notes w i ∨ LiesIn s e w i := by
  obtain ⟨rfl, hnot⟩ | ⟨entry, bits, j, found, hcopied, hbits, hj, rfl, hlies⟩ :=
    hstep.noted_or_ignored hkept
  · exact ⟨Or.inl, fun hor => hor.resolve_right (hnot w i)⟩
  · rw [hlies]
    exact h.notes_noted hkept found hcopied hbits hj w i

/-- Entering `e.pointee` keeps the lists filed, where the list has room for it. -/
theorem EnterStep.wellFiled {v : Visit} (hstep : EnterStep s e v s') (hkept : s.books.Kept)
    (h : s.WellFiled) (hsize : 8 ∣ e.size)
    (hroom : ∀ kind, s.catalog.get? e.pointee = none →
      (s.copyList kind).totalBytes + e.size + 7 < addressLimit) : s'.WellFiled := by
  have hold : ∀ {x : SourceEntry} {c : Catalog}, s.catalog.get? x.source = none →
      (∀ w, c.get? w = if x.source = w then some x else s.catalog.get? w) → ∀ kind,
      Filed c (s.copyList kind) := by
    intro x c hnew hc kind
    refine (h.filed kind).congr fun w _ y hy => ⟨y, ?_, rfl, rfl⟩
    rw [hc, if_neg]
    · exact hy
    · rintro rfl
      rw [hnew] at hy
      cases hy
  cases hstep with
  | replaced =>
    unfold withReplaced
    split
    · exact h
    · exact ⟨h.plain, fun kind => by cases kind; exact h.filed .mutable; exact h.filed .readOnly⟩
  | known => exact h
  | left _ new =>
    have hget : ∀ w, (s.withEntry (s.foundEntry e)).catalog.get? w =
        if (s.foundEntry e).source = w then some (s.foundEntry e) else s.catalog.get? w :=
      fun w => Catalog.get?_put ..
    refine ⟨fun w x hx => ?_, fun kind => ?_⟩
    · rw [hget] at hx
      split at hx
      · cases hx; rfl
      · exact h.plain w x hx
    · rw [withEntry_copyList]
      exact hold (x := s.foundEntry e) new hget kind
  | accepted _ new =>
    have hnew : s.catalog.get? (s.foundEntry e).source = none := new
    have hget := fun w => enlisted_get? s (s.foundEntry e) w
    refine ⟨fun w x hx => ?_, fun kind => ?_⟩
    · rw [hget] at hx
      split at hx
      · cases hx; rfl
      · exact h.plain w x hx
    · rw [enlisted_copyList]
      split
      · rename_i hk
        subst hk
        refine (h.filed _).accept (fun hmem => ?_) hsize (hroom _ new) hget
        rw [← sources_books] at hmem
        obtain ⟨x, hx, -⟩ := hkept.listed _ _ hmem
        have hsome : s.catalog.get? (s.foundEntry e).source = some x := hx
        rw [hnew] at hsome
        cases hsome
      · exact hold (x := (s.copyList (.ofReadOnly (s.foundEntry e).readOnly)).listed (s.foundEntry e))
          new hget kind

/-- An entry `x₀` that is added leaves what is noted, if nothing is noted of its own object. -/
theorem notes_add {x₀ : SourceEntry} {w₀ : Word} {i : Nat} (hnew : s.catalog.get? w₀ = none)
    (hget : ∀ w, s'.catalog.get? w = if w₀ = w then some x₀ else s.catalog.get? w)
    (hledger : ∀ kind, (s'.copyList kind).ledger.has = (s.copyList kind).ledger.has)
    (hfresh : x₀.isCopied = true → ¬(s.copyList (.ofReadOnly x₀.readOnly)).Notes x₀ i) (w : Word) :
    s'.Notes w i ↔ s.Notes w i := by
  have hlist : ∀ x : SourceEntry, (s'.copyList (.ofReadOnly x.readOnly)).Notes x i ↔
      (s.copyList (.ofReadOnly x.readOnly)).Notes x i := fun x => by
    unfold CopyList.Notes
    rw [hledger]
  constructor
  · rintro ⟨x, hx, hcopied, hn⟩
    rw [hget] at hx
    split at hx
    · cases hx
      exact absurd ((hlist _).1 hn) (hfresh hcopied)
    · exact ⟨x, hx, hcopied, (hlist x).1 hn⟩
  · rintro ⟨x, hx, hcopied, hn⟩
    have hne : w₀ ≠ w := by
      rintro rfl
      rw [hnew] at hx
      cases hx
    exact ⟨x, by rw [hget, if_neg hne]; exact hx, hcopied, (hlist x).2 hn⟩

/-- Entering a target leaves what is noted: nothing yet of `e.pointee`. -/
theorem EnterStep.notes_iff {v : Visit} (hstep : EnterStep s e v s') (h : s.WellFiled) (w : Word)
    (i : Nat) : s'.Notes w i ↔ s.Notes w i := by
  cases hstep with
  | replaced =>
    unfold withReplaced
    split <;> exact Iff.rfl
  | known => exact Iff.rfl
  | left _ new fate =>
    refine notes_add new (fun w => Catalog.get?_put s.catalog (s.foundEntry e) w)
      (fun kind => by rw [withEntry_copyList]) (fun hcopied => ?_) w
    exact absurd (by simpa [SourceEntry.isCopied, foundEntry, SourceEntry.found] using hcopied) fate
  | accepted _ new fate =>
    refine notes_add new (fun w => enlisted_get? ..) (fun kind => ?_) ?_ w
    · rw [enlisted_copyList]
      split
      · funext b
        exact Ledger.has_reserve ..
      · rfl
    -- its words come after all that is marked in the list
    · rintro - ⟨bits, hbits, -, hset⟩
      cases hbits
      have hlow := (h.filed _).marked _ hset
      have hwords := (h.filed (.ofReadOnly (s.foundEntry e).readOnly)).words
      dsimp only [CopyList.nextBits, CopyList.listed] at hlow
      unfold wordBytes at hlow
      omega

end SessionM

end SnapshotArchive
