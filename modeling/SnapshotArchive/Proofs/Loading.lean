import SnapshotArchive.Proofs.Coverage

/-!
A session whose copies are all made and not wired yet, seen from the heap alone: which words of the buffer
are wired, what they hold before and afterwards, and that all other words stay.
-/

namespace SnapshotArchive

open Session SessionM

/-- All objects of `h` that are archived are copied in `o`, with the tables below the copies. -/
structure Loaded (h : Heap) (tables : TableProvider) (s : Session) (o : Output) : Prop where
  books : ∃ g low below, Assembled h g tables low below s o ∧ Settled h g ∧
    ∀ kind target table, tables kind target = some table →
      o.buffer.bottom.toNat < table.toNat ∧ table.toNat ≤ o.buffer.bottom.toNat + low
  stage : s.stage = .readOnlyCopied

variable {h : Heap} {tables : TableProvider} {s : Session} {o o₁ : Output} {w : Word} {e : SourceEntry}
  {target table : Addr .buffer} {i j : Nat}

theorem SessionM.CopiesAll.loaded {templates : List DispatchTemplate} {tables : DispatchTables} {g : Session}
    {placed : List (DispatchTemplate × Addr .buffer)} {ot : Output}
    (hc : CopiesAll h templates tables g placed ot s o) : Loaded h tables.provider s o := by
  refine ⟨⟨g, _, _, hc.assembled, hc.settled, fun kind target table htable => ?_⟩, hc.stage⟩
  rw [hc.answer, DispatchTables.provider_ofPlaced] at htable
  obtain ⟨t, hmem, -⟩ := DispatchTables.mem_of_last? htable
  obtain ⟨hplace, hlow, hhigh, -⟩ := hc.holds _ hmem
  have hbuffer : o.buffer.bottom = ot.buffer.bottom := by
    rw [hc.bottom, hc.assembled.contents.bottom, hc.assembled.fills.reservations]
  rw [hbuffer]
  unfold bottomPadding wordBytes at *
  dsimp only at *
  omega

/-- The output of `s` is a buffer of `length` bytes at `bottom`. -/
def Session.OutputAt (bottom : Addr .buffer) (length : Nat) (s : Session) : Prop :=
  ∃ o, s.output? = some o ∧ o.buffer.bottom = bottom ∧ o.buffer.length = length

theorem SessionM.Touches.outputAt {bottom : Addr .buffer} {length : Nat} {s s' : Session}
    (ht : Touches s s') (h : s.OutputAt bottom length) : s'.OutputAt bottom length := by
  rcases ht with rfl | ⟨o, o', ho, hroom, rfl⟩
  · exact h
  · obtain ⟨b, hb, hbottom, hlength⟩ := h
    obtain rfl := Option.some_inj.1 (ho.symm.trans hb)
    exact ⟨o', rfl, hroom.bottom.trans hbottom, hroom.length.trans hlength⟩

/-- Wiring keeps the buffer where it is. -/
theorem SessionM.keeps_wire_outputAt (bottom : Addr .buffer) (length : Nat) :
    Keeps (OutputAt bottom length) wire := by
  intro r h
  unfold wire
  rw [wp_bind, wp_requireStage]
  split
  · rw [wp_bind, wp_tell, wp_bind]
    refine (keeps_wireRegion (fun _ _ _ _ ht hs => ht.touches.outputAt hs) .mutable).use h (fun _ r₁ h₁ => ?_)
      fun _ _ h => h
    rw [wp_bind]
    exact (keeps_wireRegion (fun _ _ _ _ ht hs => ht.touches.outputAt hs) .readOnly).use h₁
      (fun _ r₂ h₂ => h₂) fun _ _ h => h
  · exact h

namespace Loaded

theorem rank (hl : Loaded h tables s o) : 4 ≤ s.stage.rank := by
  rw [hl.stage]
  decide

theorem host (hl : Loaded h tables s o) : s.host = h.toHost := by
  obtain ⟨g, low, below, ha, -⟩ := hl.books
  exact ha.host

theorem output (hl : Loaded h tables s o) : s.output? = some o := by
  obtain ⟨g, low, below, ha, -⟩ := hl.books
  exact ha.output

theorem sound (hl : Loaded h tables s o) : s.Sound := by
  obtain ⟨g, low, below, ha, -⟩ := hl.books
  exact ha.sound

theorem bottom (hl : Loaded h tables s o) : o.buffer.bottom = s.reservations.bottom := by
  obtain ⟨g, low, below, ha, -⟩ := hl.books
  exact ha.contents.bottom

/-- Only objects of the heap have entries: there is one at `w`. -/
theorem object (hl : Loaded h tables s o) (he : s.catalog.get? w = some e) : (h.object? w).isSome = true := by
  obtain ⟨g, low, below, ha, -⟩ := hl.books
  exact ha.object_of_entry he

theorem get?_eq_none (hl : Loaded h tables s o) (hw : h.object? w = none) : s.catalog.get? w = none := by
  by_contra hsome
  obtain ⟨e, he⟩ := Option.ne_none_iff_exists'.1 hsome
  have hobject := hl.object he
  rw [hw] at hobject
  cases hobject

/-- A copy at `target` is as long as its object, and lies in whole words below the top. -/
theorem copy (hl : Loaded h tables s o) (hcopy : s.HasCopy w e target) :
    (∃ obj, h.object? w = some obj ∧ e.size = wordBytes * obj.length ∧ 0 < obj.length) ∧ e.source = w ∧
      target.toNat = o.buffer.bottom.toNat + wordBytes * o.spot target ∧
      bottomPadding ≤ wordBytes * o.spot target ∧ wordBytes * o.spot target + e.size ≤ o.arena.top := by
  obtain ⟨g, low, below, ha, -⟩ := hl.books
  obtain ⟨obj, hobj, -, hsize, hpos, hsource, -⟩ := ha.copy hcopy
  exact ⟨⟨obj, hobj, hsize, hpos⟩, hsource, ha.place hcopy⟩

/-- The `table` that a copy starts with lies below the top. -/
theorem table_place (hl : Loaded h tables s o) (hcopy : s.HasCopy w e target)
    (htable : tables e.kind target = some table) :
    o.buffer.bottom.toNat < table.toNat ∧ table.toNat < o.buffer.bottom.toNat + o.arena.top := by
  obtain ⟨g, low, below, ha, -, hplace⟩ := hl.books
  obtain ⟨hlow, hhigh⟩ := hplace _ _ _ htable
  have habove := ha.contents.above w e target hcopy
  obtain ⟨⟨obj, -, hsize, hpos⟩, -, htarget, -, htop⟩ := hl.copy hcopy
  unfold wordBytes at *
  omega

/-- An output `target` of an entry is a copy of an object of the same size. -/
theorem copy_of_output (hl : Loaded h tables s o) (he : s.catalog.get? w = some e)
    (ht : e.output? = some target) : ∃ v x, s.HasCopy v x target ∧ x.size = e.size := by
  obtain ⟨g, low, below, ha, -⟩ := hl.books
  have hleads := ha.fills.leads w e he
  induction hleads generalizing e with
  | @own w x entry plain =>
    obtain rfl := Option.some_inj.1 (he.symm.trans entry)
    exact ⟨w, e, ⟨he, plain, ht⟩, rfl⟩
  | @replaced w substitute x _ _ entry _ standIn _ ih =>
    obtain rfl := Option.some_inj.1 (he.symm.trans standIn)
    obtain ⟨v, y, hcopy, hsize⟩ := ih entry ht
    exact ⟨v, y, hcopy, hsize⟩

/-- The words `i` that are wired are the pointer fields `j` of copies. -/
theorem mem_wireSlots (hl : Loaded h tables s o) : i ∈ wireSlots s o.buffer.bottom ↔
    ∃ w e target j t, s.HasCopy w e target ∧ h.Holds w j t ∧ i = o.spot target + j := by
  obtain ⟨g, low, below, ha, hsettled, -⟩ := hl.books
  rw [ha.mem_wireSlots hl.rank]
  constructor
  · rintro ⟨w, e, target, j, hcopy, hnotes, rfl⟩
    obtain ⟨t, hholds, -⟩ := ha.grounded w j hnotes
    exact ⟨w, e, target, j, t, hcopy, hholds, rfl⟩
  · rintro ⟨w, e, target, j, t, hcopy, hholds, rfl⟩
    obtain ⟨-, -, -, -, -, -, hcopied, -⟩ := ha.copy hcopy
    exact ⟨w, e, target, j, hcopy, hsettled w _ (ha.fills.own w e hcopy.1 hcopy.2.1) hcopied j t hholds, rfl⟩

/-- Word `j` of a copy starts out as that of its object, but for the table in front. -/
theorem word (hl : Loaded h tables s o) (hcopy : s.HasCopy w e target) (hj : j < e.size / wordBytes) :
    o.buffer.words.read (o.spot target + j) = copiedWord tables s.host e target j := by
  obtain ⟨g, low, below, ha, -⟩ := hl.books
  exact ha.contents.words w e target hcopy j hj

theorem field_lt (hl : Loaded h tables s o) (hcopy : s.HasCopy w e target) {t : Word}
    (hholds : h.Holds w j t) : j < e.size / wordBytes := by
  obtain ⟨⟨obj, hobj, hsize, -⟩, -⟩ := hl.copy hcopy
  obtain ⟨obj', hobj', -, hlt, -⟩ := hholds
  obtain rfl : obj = obj' := Option.some_inj.1 (hobj.symm.trans hobj')
  rw [hsize, Nat.mul_div_cancel_left _ (by decide)]
  exact hlt

/-- A pointer field `j` of a wired copy holds where the target `t` of the field ended up. -/
theorem wired_field (hl : Loaded h tables s o)
    (hwired : Wired s.catalog o o₁ (wireSlots s o.buffer.bottom)) (hcopy : s.HasCopy w e target) {t : Word}
    (hholds : h.Holds w j t) :
    ∃ outcome, s.catalog.resolve (o.buffer.words.read (o.spot target + j)) = .ok outcome ∧
      o₁.buffer.words.read (o.spot target + j) = outcome.word ∧
      (outcome.word ≠ 0 → o₁.pointers.has (o.spot target + j) = true) := by
  have hslot := hl.mem_wireSlots.2 ⟨w, e, target, j, t, hcopy, hholds, rfl⟩
  obtain ⟨outcome, hout, hread⟩ := hwired.words _ hslot
  refine ⟨outcome, hout, hread, fun hne => ?_⟩
  rw [hwired.marks, hread]
  simp [hslot, hne]

/-- Any other word `j` of a copy stays as it started out, and only a table in front is marked. -/
theorem wired_other (hl : Loaded h tables s o)
    (hwired : Wired s.catalog o o₁ (wireSlots s o.buffer.bottom)) (hcopy : s.HasCopy w e target)
    (hj : j < e.size / wordBytes) (hnot : ∀ t, ¬h.Holds w j t) :
    o₁.buffer.words.read (o.spot target + j) = copiedWord tables s.host e target j ∧
      (o₁.pointers.has (o.spot target + j) = true ↔ j = 0 ∧ startsWithTable tables e target = true) := by
  obtain ⟨g, low, below, ha, hsettled, -⟩ := hl.books
  refine ha.wired_other hl.rank hwired hcopy hj fun hnotes => ?_
  obtain ⟨t, hholds, -⟩ := ha.grounded w j hnotes
  exact hnot t hholds

/-- What lies outside of copies, as word `i` does, is not wired. -/
theorem wired_outside (hl : Loaded h tables s o)
    (hwired : Wired s.catalog o o₁ (wireSlots s o.buffer.bottom))
    (hi : ∀ w e target j, s.HasCopy w e target → j < e.size / wordBytes → i ≠ o.spot target + j) :
    o₁.buffer.words.read i = o.buffer.words.read i ∧ o₁.pointers.has i = false := by
  obtain ⟨g, low, below, ha, -⟩ := hl.books
  have hslot : i ∉ wireSlots s o.buffer.bottom := by
    intro hmem
    obtain ⟨w, e, target, j, t, hcopy, hholds, rfl⟩ := hl.mem_wireSlots.1 hmem
    exact hi w e target j hcopy (hl.field_lt hcopy hholds) rfl
  have hunmarked : o.pointers.has i = false := by
    by_contra hset
    obtain ⟨w, e, target, hcopy, rfl, -⟩ := (ha.contents.marks i).1 (Bool.not_eq_false _ ▸ hset)
    exact hi w e target 0 hcopy (ha.size_pos hcopy) rfl
  refine ⟨hwired.others _ hslot, ?_⟩
  rw [hwired.marks, hunmarked]
  simp [hslot]

/-- A copy at `target` is a slot of the buffer. -/
theorem slotOffset_copy (hl : Loaded h tables s o) (hcopy : s.HasCopy w e target) :
    o.buffer.slotOffset target = .ok (wordBytes * o.spot target) := by
  obtain ⟨g, low, below, ha, -⟩ := hl.books
  exact ha.slotOffset_copy hcopy

/-- Wiring wires every pointer field, or one of them leads nowhere. -/
theorem triple_wire (hl : Loaded h tables s o) :
    Triple (· = s) wire
      (fun _ s' => ∃ o₁, Wired s.catalog o o₁ (wireSlots s o.buffer.bottom) ∧
        s' = { s with output? := some o₁, stage := .wired } ∧ s'.Sound)
      (fun _ s' => s'.OutputAt o.buffer.bottom o.buffer.length ∧
        ∃ i ∈ wireSlots s o.buffer.bottom, ∃ v, s.catalog.resolve (o.buffer.words.read i) = .error v) := by
  obtain ⟨g, low, below, ha, -⟩ := hl.books
  refine ((ha.triple_wire hl.stage).and (keeps_wire_outputAt o.buffer.bottom o.buffer.length)).conseq
    (fun s' hs' => ⟨hs', ?_⟩) ?_ ?_
  · rw [hs']
    exact ⟨o, hl.output, rfl, rfl⟩
  · rintro _ s' ⟨⟨hs, o₁, hwired, rfl⟩, -⟩
    exact ⟨o₁, hwired, rfl, hs⟩
  · rintro _ s' ⟨⟨i, hi, hv⟩ | ⟨w, e, target, v, he, hplain, ht, hv⟩, hat⟩
    · exact ⟨hat, i, hi, hv⟩
    · rw [hl.slotOffset_copy ⟨he, hplain, ht⟩] at hv
      cases hv

/-- The last two steps keep the buffer where it is. -/
theorem triple_finish_outputAt (hl : Loaded h tables s o) :
    Triple (· = s) (wire >>= fun _ => relocate) (fun _ => OutputAt o.buffer.bottom o.buffer.length)
      (fun _ => OutputAt o.buffer.bottom o.buffer.length) := by
  rintro r rfl
  rw [wp_bind]
  refine hl.triple_wire.use rfl (fun _ r₁ h₁ => ?_) fun _ _ h => h.1
  obtain ⟨o₁, hwired, hr₁, hs₁⟩ := h₁
  refine (triple_relocate (s := r₁.session) (o := o₁) hs₁ (by rw [hr₁]) (by rw [hr₁])).use rfl ?_ ?_
  · rintro _ r₂ ⟨o₂, hlanded, hr₂⟩
    exact ⟨o₂, by rw [hr₂], hlanded.bottom.trans hwired.room.bottom, hlanded.length.trans hwired.room.length⟩
  · rintro _ r₂ ⟨_, -, -, o₂, top?, hroom, hr₂⟩
    exact ⟨o₂, by rw [hr₂], hroom.bottom.trans hwired.room.bottom, hroom.length.trans hwired.room.length⟩

end Loaded

end SnapshotArchive
