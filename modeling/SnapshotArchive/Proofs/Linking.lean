import Mathlib.Data.List.Nodup
import Mathlib.Tactic.Common
import SnapshotArchive.Proofs.Contents
import SnapshotArchive.Proofs.Gathering
import SnapshotArchive.Proofs.Wires

/-!
Copies of heap objects once they are wired. The slots that are wired are the noted words of the copies,
each of them once. So a noted word of a copy holds where its target ended up, and every other word what
the copy started out with.
-/

namespace SnapshotArchive

/-- All copies of `h` are made in `o`, from books that were gathered as `g`. -/
structure Assembled (h : Heap) (g : Session) (tables : TableProvider) (low : Nat) (below : Nat → Word)
    (s : Session) (o : Output) : Prop where
  heap : h.Sound
  cataloged : Session.Cataloged h g
  grounded : Session.Grounded h g
  sound : s.Sound
  output : s.output? = some o
  fills : Session.Fills g s
  contents : Session.Contents tables low below s o

/-- The word of the buffer at which the copy at `target` starts. -/
def Output.spot (o : Output) (target : Addr .buffer) : Nat :=
  (target.toNat - o.buffer.bottom.toNat) / wordBytes

namespace Assembled

open Session SessionM

variable {h : Heap} {g s : Session} {tables : TableProvider} {low : Nat} {below : Nat → Word}
  {o o' : Output} {w w' : Word} {e e' : SourceEntry} {target target' : Addr .buffer}

/-- The copy at `target` is that of a heap object `w`, whose entry is listed. -/
theorem copy (ha : Assembled h g tables low below s o) (hcopy : s.HasCopy w e target) :
    ∃ obj, h.object? w = some obj ∧ e.kind = obj.kind ∧ e.size = wordBytes * obj.length ∧
      0 < obj.length ∧ e.source = w ∧ e.isCopied = true ∧
      w ∈ s.books.sources (.ofReadOnly e.readOnly) := by
  obtain ⟨he, hplain, ht⟩ := hcopy
  obtain ⟨obj, hobj, hkind, hsize⟩ := ha.cataloged.object w _ (ha.fills.own w e he hplain)
  have hcopied := ha.sound.books.copied w e he (by rw [ht]; rfl)
  exact ⟨obj, hobj, hkind, hsize.trans (Nat.mul_comm ..), ha.heap.filled w obj hobj,
    ha.sound.books.keyed w e he, hcopied, ha.sound.books.enlisted w e he hcopied hplain⟩

/-- The copy at `target` lies in whole words of the buffer, from `o.spot target` on. -/
theorem place (ha : Assembled h g tables low below s o) (hcopy : s.HasCopy w e target) :
    target.toNat = o.buffer.bottom.toNat + wordBytes * o.spot target ∧
      bottomPadding ≤ wordBytes * o.spot target ∧
      wordBytes * o.spot target + e.size ≤ o.arena.top := by
  obtain ⟨offset, hoffset, hdvd, hlow, hhigh⟩ :=
    (ha.sound.filled o ha.output).layout.inside w e target hcopy.1 hcopy.2.2
  unfold Output.spot wordBytes
  omega

/-- Copies of different objects `w` and `w'` share no word. -/
theorem apart (ha : Assembled h g tables low below s o) (hcopy : s.HasCopy w e target)
    (hcopy' : s.HasCopy w' e' target') (hne : w ≠ w') :
    o.spot target + e.size / wordBytes ≤ o.spot target' ∨
      o.spot target' + e'.size / wordBytes ≤ o.spot target := by
  have hf := ha.sound.filled o ha.output
  have happart := hf.layout.apart ha.sound.books hf.arena hne hcopy.1 hcopy.2.1 hcopy.2.2 hcopy'.1
    hcopy'.2.1 hcopy'.2.2
  obtain ⟨obj, -, -, hsize, -⟩ := ha.copy hcopy
  obtain ⟨obj', -, -, hsize', -⟩ := ha.copy hcopy'
  obtain ⟨hp, -⟩ := ha.place hcopy
  obtain ⟨hp', -⟩ := ha.place hcopy'
  rw [hp, hp'] at happart
  rw [hsize, hsize'] at happart ⊢
  unfold wordBytes at *
  omega

/-- What is noted of word `j` of a copied entry is what was noted when it was gathered. -/
theorem notes_iff (ha : Assembled h g tables low below s o) (hcopy : s.HasCopy w e target) (j : Nat) :
    (s.copyList (.ofReadOnly e.readOnly)).Notes e j ↔ g.Notes w j := by
  obtain ⟨-, -, -, -, -, -, hcopied, -⟩ := ha.copy hcopy
  have hown := ha.fills.own w e hcopy.1 hcopy.2.1
  rw [ha.fills.lists]
  unfold Session.Notes
  rw [hown]
  constructor
  · exact fun hn => ⟨_, rfl, hcopied, hn⟩
  · rintro ⟨x, hx, -, hn⟩
    cases hx
    exact hn

/-- A noted word `j` is a word of its object. -/
theorem noted_lt (ha : Assembled h g tables low below s o) (hcopy : s.HasCopy w e target) {j : Nat}
    (hnotes : g.Notes w j) : j < e.size / wordBytes := by
  obtain ⟨t, ⟨obj, hobj, -, hlt, -⟩, -⟩ := ha.grounded w j hnotes
  obtain ⟨obj', hobj', -, hsize, -⟩ := ha.copy hcopy
  obtain rfl : obj = obj' := Option.some_inj.1 (hobj.symm.trans hobj')
  rw [hsize, Nat.mul_div_cancel_left _ (by decide)]
  exact hlt

theorem mem_objectSlots (ha : Assembled h g tables low below s o) (hcopy : s.HasCopy w e target)
    {i : Nat} : i ∈ objectSlots s o.buffer.bottom (s.copyList (.ofReadOnly e.readOnly)) w ↔
      ∃ j, g.Notes w j ∧ i = o.spot target + j := by
  obtain ⟨hp, -⟩ := ha.place hcopy
  have hsub : target.toNat - o.buffer.bottom.toNat = wordBytes * o.spot target := by omega
  unfold objectSlots
  rw [hcopy.1]
  dsimp only
  rw [hcopy.2.2]
  simp only [List.mem_map, CopyList.mem_pointerOffsets, ha.notes_iff hcopy, hsub]
  constructor
  · rintro ⟨n, ⟨j, hn, rfl⟩, rfl⟩
    exact ⟨j, hn, by unfold wordBytes; omega⟩
  · rintro ⟨j, hn, rfl⟩
    exact ⟨j * wordBytes, ⟨j, hn, rfl⟩, by unfold wordBytes; omega⟩

/-- Where an object `w` of the region `kind` was copied to, once all of them are. -/
theorem hasCopy (ha : Assembled h g tables low below s o) {kind : RegionKind}
    (hrank : kind.copiedRank ≤ s.stage.rank) (hw : w ∈ s.books.sources kind) :
    ∃ e target, s.HasCopy w e target ∧ RegionKind.ofReadOnly e.readOnly = kind := by
  obtain ⟨e, he, -, hplain, hkind⟩ := ha.sound.books.listed kind w hw
  obtain ⟨x, hx, hout⟩ := (ha.sound.filled o ha.output).copied kind hrank w hw
  obtain rfl : e = x := Option.some_inj.1 (he.symm.trans hx)
  obtain ⟨target, ht⟩ := Option.isSome_iff_exists.1 hout
  exact ⟨e, target, ⟨he, hplain, ht⟩, hkind⟩

theorem rank_le (hrank : 4 ≤ s.stage.rank) (kind : RegionKind) : kind.copiedRank ≤ s.stage.rank :=
  Nat.le_trans (by cases kind <;> decide) hrank

/-- The slots `i` that are wired are the noted words `j` of the copies. -/
theorem mem_wireSlots (ha : Assembled h g tables low below s o) (hrank : 4 ≤ s.stage.rank) {i : Nat} :
    i ∈ wireSlots s o.buffer.bottom ↔
      ∃ w e target j, s.HasCopy w e target ∧ g.Notes w j ∧ i = o.spot target + j := by
  have hregion : ∀ kind, i ∈ regionSlots s o.buffer.bottom kind ↔
      ∃ w e target j, s.HasCopy w e target ∧ g.Notes w j ∧ i = o.spot target + j ∧
        RegionKind.ofReadOnly e.readOnly = kind := by
    intro kind
    unfold regionSlots
    rw [List.mem_flatMap]
    constructor
    · rintro ⟨w, hw, hi⟩
      obtain ⟨e, target, hcopy, rfl⟩ := ha.hasCopy (rank_le hrank kind) hw
      obtain ⟨j, hn, rfl⟩ := (ha.mem_objectSlots hcopy).1 hi
      exact ⟨w, e, target, j, hcopy, hn, rfl, rfl⟩
    · rintro ⟨w, e, target, j, hcopy, hn, rfl, rfl⟩
      obtain ⟨-, -, -, -, -, -, -, hmem⟩ := ha.copy hcopy
      exact ⟨w, hmem, (ha.mem_objectSlots hcopy).2 ⟨j, hn, rfl⟩⟩
  unfold wireSlots
  rw [List.mem_append, hregion, hregion]
  constructor
  · rintro (⟨w, e, target, j, hcopy, hn, hi, -⟩ | ⟨w, e, target, j, hcopy, hn, hi, -⟩)
    · exact ⟨w, e, target, j, hcopy, hn, hi⟩
    · exact ⟨w, e, target, j, hcopy, hn, hi⟩
  · rintro ⟨w, e, target, j, hcopy, hn, hi⟩
    cases hk : RegionKind.ofReadOnly e.readOnly with
    | mutable => exact Or.inl ⟨w, e, target, j, hcopy, hn, hi, hk⟩
    | readOnly => exact Or.inr ⟨w, e, target, j, hcopy, hn, hi, hk⟩

/-- A word of the buffer belongs to one copy: two that have it as their words `j` and `j'` are the
    same. -/
theorem eq_of_word (ha : Assembled h g tables low below s o) (hcopy : s.HasCopy w e target)
    (hcopy' : s.HasCopy w' e' target') {j j' : Nat} (hj : j < e.size / wordBytes)
    (hj' : j' < e'.size / wordBytes) (heq : o.spot target + j = o.spot target' + j') :
    w = w' ∧ e = e' ∧ target = target' ∧ j = j' := by
  obtain rfl : w = w' := by
    by_contra hne
    have := ha.apart hcopy hcopy' hne
    omega
  obtain rfl : e = e' := Option.some_inj.1 (hcopy.1.symm.trans hcopy'.1)
  obtain rfl : target = target' := Option.some_inj.1 (hcopy.2.2.symm.trans hcopy'.2.2)
  exact ⟨rfl, rfl, rfl, by omega⟩

/-- No slot is wired twice. -/
theorem nodup_wireSlots (ha : Assembled h g tables low below s o) (hrank : 4 ≤ s.stage.rank) :
    (wireSlots s o.buffer.bottom).Nodup := by
  -- a slot to wire is a word of the copy of some listed object, and copies share no word
  have hmem : ∀ kind, ∀ w ∈ s.books.sources kind,
      ∀ i ∈ objectSlots s o.buffer.bottom (s.copyList kind) w, ∃ e target j, s.HasCopy w e target ∧
        RegionKind.ofReadOnly e.readOnly = kind ∧ j < e.size / wordBytes ∧ i = o.spot target + j := by
    intro kind w hw i hi
    obtain ⟨e, target, hcopy, rfl⟩ := ha.hasCopy (rank_le hrank kind) hw
    obtain ⟨j, hn, rfl⟩ := (ha.mem_objectSlots hcopy).1 hi
    exact ⟨e, target, j, hcopy, rfl, ha.noted_lt hcopy hn, rfl⟩
  have hobject : ∀ kind, ∀ w ∈ s.books.sources kind,
      (objectSlots s o.buffer.bottom (s.copyList kind) w).Nodup := by
    intro kind w hw
    obtain ⟨e, target, hcopy, -⟩ := ha.hasCopy (rank_le hrank kind) hw
    unfold objectSlots
    rw [hcopy.1]
    dsimp only
    rw [hcopy.2.2]
    refine List.Nodup.map_on (fun n hn m hm heq => ?_) ((s.copyList kind).nodup_pointerOffsets e)
    obtain ⟨j, -, rfl⟩ := CopyList.mem_pointerOffsets.1 hn
    obtain ⟨k, -, rfl⟩ := CopyList.mem_pointerOffsets.1 hm
    unfold wordBytes at *
    omega
  have hregion : ∀ kind, (regionSlots s o.buffer.bottom kind).Nodup := by
    intro kind
    refine List.nodup_flatMap.2 ⟨hobject kind, (ha.sound.books.nodup kind).imp_of_mem ?_⟩
    intro v w hv hw hne i hi hi'
    obtain ⟨e, target, j, hcopy, -, hj, rfl⟩ := hmem kind v hv i hi
    obtain ⟨e', target', j', hcopy', -, hj', heq⟩ := hmem kind w hw _ hi'
    exact hne (ha.eq_of_word hcopy hcopy' hj hj' heq).1
  refine List.nodup_append.2 ⟨hregion _, hregion _, ?_⟩
  rintro i hi i' hi' rfl
  obtain ⟨v, hv, hi⟩ := List.mem_flatMap.1 hi
  obtain ⟨w, hw, hi'⟩ := List.mem_flatMap.1 hi'
  obtain ⟨e, target, j, hcopy, hkind, hj, rfl⟩ := hmem _ v hv i hi
  obtain ⟨e', target', j', hcopy', hkind', hj', heq⟩ := hmem _ w hw _ hi'
  obtain ⟨-, rfl, -⟩ := ha.eq_of_word hcopy hcopy' hj hj' heq
  rw [hkind] at hkind'
  cases hkind'

/-- Word `j` of a copy is marked before it is wired only if it holds a table. -/
theorem mark_iff (ha : Assembled h g tables low below s o) (hcopy : s.HasCopy w e target) {j : Nat}
    (hj : j < e.size / wordBytes) :
    o.pointers.has (o.spot target + j) = true ↔ j = 0 ∧ startsWithTable tables e target = true := by
  rw [ha.contents.marks]
  constructor
  · rintro ⟨w', e', target', hcopy', hi, htable⟩
    obtain ⟨obj, -, -, hsize, hpos, -⟩ := ha.copy hcopy'
    have hzero : 0 < e'.size / wordBytes := by
      rw [hsize, Nat.mul_div_cancel_left _ (by decide)]
      exact hpos
    obtain ⟨-, rfl, rfl, rfl⟩ := ha.eq_of_word hcopy hcopy' hj hzero hi
    exact ⟨rfl, htable⟩
  · rintro ⟨rfl, htable⟩
    exact ⟨w, e, target, hcopy, rfl, htable⟩

/-- A noted word `j` of a wired copy holds where the target of the field ended up. -/
theorem wired_noted (ha : Assembled h g tables low below s o) (hrank : 4 ≤ s.stage.rank)
    (hwired : Wired s.catalog o o' (wireSlots s o.buffer.bottom)) (hcopy : s.HasCopy w e target)
    {j : Nat} (hnotes : g.Notes w j) :
    ∃ outcome, s.catalog.resolve (copiedWord tables s.host e target j) = .ok outcome ∧
      o'.buffer.words.read (o.spot target + j) = outcome.word ∧
      (o'.pointers.has (o.spot target + j) = true ↔
        j = 0 ∧ startsWithTable tables e target = true ∨ outcome.word ≠ 0) := by
  have hj := ha.noted_lt hcopy hnotes
  have hslot := (ha.mem_wireSlots hrank).2 ⟨w, e, target, j, hcopy, hnotes, rfl⟩
  obtain ⟨outcome, hout, hread⟩ := hwired.words _ hslot
  have hword : o.buffer.words.read (o.spot target + j) = copiedWord tables s.host e target j :=
    ha.contents.words w e target hcopy j hj
  rw [hword] at hout
  refine ⟨outcome, hout, hread, ?_⟩
  rw [hwired.marks, Bool.or_eq_true, ha.mark_iff hcopy hj, Bool.and_eq_true, decide_eq_true_eq, hread,
    bne_iff_ne]
  simp only [hslot, true_and]

/-- Any other word `j` of a copy stays as the copy started out. -/
theorem wired_other (ha : Assembled h g tables low below s o) (hrank : 4 ≤ s.stage.rank)
    (hwired : Wired s.catalog o o' (wireSlots s o.buffer.bottom)) (hcopy : s.HasCopy w e target)
    {j : Nat} (hj : j < e.size / wordBytes) (hnotes : ¬g.Notes w j) :
    o'.buffer.words.read (o.spot target + j) = copiedWord tables s.host e target j ∧
      (o'.pointers.has (o.spot target + j) = true ↔
        j = 0 ∧ startsWithTable tables e target = true) := by
  have hslot : o.spot target + j ∉ wireSlots s o.buffer.bottom := by
    intro hmem
    obtain ⟨w', e', target', j', hcopy', hn, heq⟩ := (ha.mem_wireSlots hrank).1 hmem
    obtain ⟨rfl, -, -, rfl⟩ := ha.eq_of_word hcopy hcopy' hj (ha.noted_lt hcopy' hn) heq
    exact hnotes hn
  refine ⟨(hwired.others _ hslot).trans (ha.contents.words w e target hcopy j hj), ?_⟩
  rw [hwired.marks, Bool.or_eq_true, ha.mark_iff hcopy hj]
  simp [hslot]

/-- Word `i` below the copies is not wired. -/
theorem wired_below (ha : Assembled h g tables low below s o) (hrank : 4 ≤ s.stage.rank)
    (hwired : Wired s.catalog o o' (wireSlots s o.buffer.bottom)) {i : Nat} (hi : 8 * i < low) :
    o'.buffer.words.read i = below i ∧ o'.pointers.has i = false := by
  have hslot : i ∉ wireSlots s o.buffer.bottom := by
    intro hmem
    obtain ⟨w, e, target, j, hcopy, -, rfl⟩ := (ha.mem_wireSlots hrank).1 hmem
    have habove := ha.contents.above w e target hcopy
    obtain ⟨hp, -⟩ := ha.place hcopy
    unfold wordBytes at hp
    omega
  have hunmarked : o.pointers.has i = false := by
    by_contra hset
    obtain ⟨w, e, target, hcopy, rfl, -⟩ := (ha.contents.marks i).1 (Bool.not_eq_false _ ▸ hset)
    have habove := ha.contents.above w e target hcopy
    obtain ⟨hp, -⟩ := ha.place hcopy
    change 8 * o.spot target < low at hi
    unfold wordBytes at hp
    omega
  refine ⟨(hwired.others _ hslot).trans (ha.contents.below i hi), ?_⟩
  rw [hwired.marks, hunmarked]
  simp [hslot]

end Assembled

end SnapshotArchive
