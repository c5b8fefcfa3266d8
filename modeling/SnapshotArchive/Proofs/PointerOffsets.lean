import Mathlib.Tactic.Common
import SnapshotArchive.Proofs.Aliases
import SnapshotArchive.Proofs.ChainOffsets
import SnapshotArchive.Proofs.LooseWords

/-!
Pointers that are written by hand, and offsets. A pointer to a source object leads to where references to the
object end up. The offset of an address looks for the address in the dependency and in the buffer first, and
only then for the copy of an object. The two agree unless an object was replaced that lies in one of them
itself: the pointer leads to the copy of its substitute, and the offset is that of its own place.
-/

namespace SnapshotArchive

open SessionM

namespace Session

variable {s u : Session} {o : Output} {w : Word} {e : SourceEntry} {outcome : Resolution}

/-- What a pointer `v` leads to lies on the chain. -/
theorem Shifts.onChain {requested : AddrRange .requested} {v v' : Word} (h : s.Shifts o requested v v')
    (htop : o.arena.pack.top ≤ o.buffer.length) : s.OnChain o.buffer v := by
  cases h with
  | own here =>
    refine .inr (AddrRange.contains_iff.2 ⟨here.1, ?_⟩)
    rw [Buffer.range_top]
    exact here.2.trans_le (Nat.add_le_add_left htop _)
  | foreign _ dependency there => exact .inl ⟨_, dependency, there⟩

theorem OnChain.congr {b b' : Buffer} (h : s.OnChain b w) (hdependency : u.dependency? = s.dependency?)
    (hrange : b'.range.contains w = b.range.contains w) : u.OnChain b' w := by
  rcases h with ⟨d, hd, hw⟩ | hw
  · exact .inl ⟨d, hdependency.trans hd, hw⟩
  · exact .inr (hrange.trans hw)

namespace Chained

/-- An object `w` that lies itself neither in the dependency nor in the buffer has the offset of
    what references to it lead to, its `outcome`. -/
theorem offsetIs_resolved (hchain : u.Chained o) (hu : u.Sound)
    (hsized : ∀ v x, u.catalog.get? v = some x → 0 < x.size) (hkeyed : e.source = w) (hkept : ∀ target,
      e.output? = some target → ∃ e', u.catalog.get? w = some e' ∧ e'.output? = some target)
    (houtcome : e.resolution? = some outcome) (hne : outcome.word ≠ 0) (hoff : ¬u.OnChain o.buffer w)
    (hon : u.OnChain o.buffer outcome.word) {n : Nat} (hn : u.OffsetIs outcome.word n) : u.OffsetIs w n := by
  obtain ⟨target, htarget, rfl⟩ | ⟨-, rfl⟩ := SourceEntry.copy_or_existing houtcome hne
  · obtain ⟨e', he', htarget'⟩ := hkept target htarget
    have hf := hu.filled o hchain.output
    obtain ⟨offset, hplace, -, -, hroom⟩ := hf.layout.inside w e' target he' htarget'
    have hspot : o.buffer.offsetOf? target.word = some offset := by
      have htop := hf.arena.top_le_length.trans (Nat.le_of_eq hf.length)
      have hsize := hsized w e' he'
      exact Buffer.offsetOf?_eq_some.2 ⟨hplace, by omega⟩
    have helsewhere : (∀ d, u.dependency? = some d → d.mapped.contains w = false) ∧
        o.buffer.range.contains w = false := by
      unfold OnChain at hoff
      simpa using hoff
    rw [hn.unique (hchain.offsetIs_own hspot)]
    exact hchain.offsetIs_output he' htarget' hspot helsewhere
  · exact absurd (hkeyed ▸ hon) hoff

end Chained

/-- A pointer to `w` that is written into a block stays there, marked, until the final pass. -/
theorem cell_of_writePointer {blocks : List Span} {slot : Addr .buffer} {calls : List Call}
    (htended : Tended blocks s) (hin : ∃ b ∈ blocks, b.Has slot.toNat)
    (hok : ((writePointer slot (some w)).perform s).1 = .ok ()) (houtcome : s.catalog.resolve w = .ok outcome)
    (hne : outcome.word ≠ 0)
    (hlast : ((Call.writePointer slot (some w)).after s).handles slot.toNat calls = false)
    (hfirst : ∀ c ∈ calls, c ≠ .relocate)
    (ho : (((Call.writePointer slot (some w)).after s).afterCalls calls).output? = some o) :
    ∃ i, slot.toNat = o.buffer.bottom.toNat + wordBytes * i ∧ o.cell i = (outcome.word, true) := by
  obtain ⟨o₁, n, words, pointers, ho₁, hn, hcells, hs'⟩ :=
    Call.remake_of_ok (c := .writePointer slot (some w)) (s := s) rfl hok
  have hplace := (Buffer.slotOffset_index hn (n / wordBytes)).1 rfl
  have hword : s.pointerWord (some w) = .ok outcome.word := by
    change (s.catalog.resolve w).map Resolution.word = _
    rw [houtcome]
    rfl
  have hcell : (o₁.withContents words pointers).cell (n / wordBytes) = (outcome.word, true) := by
    rw [hcells, if_pos rfl, Call.remake, hword]
    exact Prod.ext rfl (bne_iff_ne.2 hne)
  have htended' := (Call.writePointer slot (some w)).tended_after htended
  rw [Call.block?_of_slot? rfl, Option.toList_none, List.append_nil] at htended'
  obtain ⟨x, hx, hbottom, hkept⟩ :=
    htended'.cells_afterCalls (o := o₁.withContents words pointers) (by rw [hs']) (unpassed_of_ne hfirst)
  obtain rfl : o = x := Option.some_inj.1 (ho.symm.trans hx)
  have hplace' : slot.toNat = o.buffer.bottom.toNat + wordBytes * (n / wordBytes) := by
    rw [hbottom]
    exact hplace
  obtain ⟨b, hb, hhas⟩ := hin
  refine ⟨n / wordBytes, hplace', ?_⟩
  obtain ⟨-, hlastCell⟩ := hkept (n / wordBytes) (.inr ⟨b, List.mem_append_left _ hb, hplace' ▸ hhas⟩)
  rw [hlastCell, ← hcell]
  refine handmade_of_not_handles ?_ _
  rw [← hbottom, ← hplace']
  exact hlast

/-- An object `w` that was not replaced lies on the chain only if references to it stay as they
    are. -/
theorem resolved_of_onChain {h : Heap} (made : h.Made) (hs : s.Sound) (hclassified : s.Classified)
    (hhost : s.host = h.toHost) (hheap : h.Apart o.buffer) (he : s.catalog.get? w = some e)
    (hplain : e.isAlias = false) (houtcome : e.resolution? = some outcome) (hne : outcome.word ≠ 0)
    (hon : s.OnChain o.buffer w) : outcome.word = w := by
  obtain ⟨target, htarget, rfl⟩ | ⟨-, rfl⟩ := SourceEntry.copy_or_existing houtcome hne
  · obtain ⟨hforeign, hown⟩ := HasCopy.elsewhere ⟨he, hplain, htarget⟩ hs hclassified hhost made hheap
    rcases hon with ⟨d, hd, hw⟩ | hw
    · exact nomatch (hforeign d hd).symm.trans hw
    · exact nomatch hown.symm.trans hw
  · exact hs.books.keyed w e he

/-- The final pass after `calls` puts a pointer at the offset of the address to which it leads. -/
theorem pointer_of_pass {host : Host} {reservations : Reservations} {settings : Settings}
    {mapped? : Option (AddrRange .mapped)} {alive : Bool}
    (hbegin : begin host reservations settings mapped? alive = .ok s) (calls : List Call)
    (ho : (s.afterCalls calls).output? = some o)
    (hmapped : ∀ m, mapped? = some m → ∀ v, m.contains v = true → o.buffer.range.contains v = false)
    (hpass : (relocate.perform (s.afterCalls calls)).1 = .ok ()) {i : Nat} (hmark : o.pointers.has i = true)
    (hword : o.buffer.words.read i = w) (hne : w ≠ 0) :
    ∃ o' a n, (Call.relocate.after (s.afterCalls calls)).archive? = some a ∧ a.buffer = o'.buffer ∧
      o'.buffer.bottom = o.buffer.bottom ∧ o'.buffer.length = o.buffer.length ∧
      (Call.relocate.after (s.afterCalls calls)).Chained o' ∧ a.pointers.has i = true ∧
      (a.buffer.words.read i).toNat = settings.requestedBase.toNat + n ∧
      (Call.relocate.after (s.afterCalls calls)).OnChain o'.buffer w ∧
      (Call.relocate.after (s.afterCalls calls)).OffsetIs w n := by
  have hdevelops := (sound_begin hbegin).develops (calls ++ [.relocate])
  have hs : (s.afterCalls calls).Sound := ((sound_begin hbegin).develops calls).sound
  rw [afterCalls_append] at hdevelops
  change Develops s (Call.relocate.after (s.afterCalls calls)) at hdevelops
  have hsettings : (Call.relocate.after (s.afterCalls calls)).settings = settings := by
    obtain ⟨-, d?, -, rfl⟩ := begin_eq_ok hbegin
    exact hdevelops.frame.2.1
  have hdependency := (Call.relocate.develops_after hs).frame.2.2
  obtain ⟨o', a, -, ha, hbuffer, hfinished, hrequested, hchain⟩ := chained_of_pass hbegin _ ho hmapped hpass
  have hbottom : o'.buffer.bottom = o.buffer.bottom := hbuffer ▸ hfinished.bottom
  have hlength : o'.buffer.length = o.buffer.length := hbuffer ▸ hfinished.length
  have hpack : o.arena.pack.top ≤ o.buffer.length :=
    pack_top_le (hs.filled o ho) (by rw [stage_of_perform hpass]; decide)
  have hshift := hfinished.pointers i hmark (hword ▸ hne)
  rw [hword] at hshift
  obtain ⟨n, hn, hput⟩ :=
    hchain.shifts hdependency hbottom hrequested (hpack.trans (Nat.le_of_eq hlength.symm)) hshift
  rw [hsettings] at hput
  refine ⟨o', a, n, ha, hbuffer, hbottom, hlength, hchain, ?_, hput,
    (hshift.onChain hpack).congr hdependency (Buffer.contains_congr hbottom hlength w), hn⟩
  rw [hfinished.marks, hmark, hword]
  exact bne_iff_ne.2 hne

/-- A pointer that was written by hand to an object last, between the calls `before` and `after`, is
    put at the offset of what references to the object lead to. The object has an offset of its own,
    which is the same unless it lies in the dependency or the buffer itself and references to it
    lead elsewhere. Such an object was replaced. -/
theorem written_pointer_offset {h : Heap} (made : h.Made) {reservations : Reservations} {settings : Settings}
    {mapped? : Option (AddrRange .mapped)} {alive : Bool}
    (hbegin : begin h.toHost reservations settings mapped? alive = .ok s) {before after : List Call}
    {slot : Addr .buffer} (hin : ∃ b ∈ s.blocks before, b.Has slot.toNat)
    (hok : ((writePointer slot (some w)).perform (s.afterCalls before)).1 = .ok ())
    (houtcome : (s.afterCalls before).catalog.resolve w = .ok outcome) (hne : outcome.word ≠ 0)
    (hlast : ((Call.writePointer slot (some w)).after (s.afterCalls before)).handles slot.toNat after = false)
    (hfirst : ∀ c ∈ after, c ≠ .relocate)
    (ho : (s.afterCalls (before ++ .writePointer slot (some w) :: after)).output? = some o)
    (hheap : h.Apart o.buffer)
    (hmapped : ∀ m, mapped? = some m → ∀ v, m.contains v = true → o.buffer.range.contains v = false)
    (hpass : (relocate.perform (s.afterCalls (before ++ .writePointer slot (some w) :: after))).1 = .ok ()) :
    let u := Call.relocate.after (s.afterCalls (before ++ .writePointer slot (some w) :: after))
    ∃ a i m n, u.archive? = some a ∧ slot.toNat = a.buffer.bottom.toNat + wordBytes * i ∧
      a.pointers.has i = true ∧ (a.buffer.words.read i).toNat = settings.requestedBase.toNat + n ∧
      u.OffsetIs outcome.word n ∧ u.OffsetIs w m ∧
      (m = n ↔ u.OnChain a.buffer w → outcome.word = w) ∧
      ∀ e, (s.afterCalls before).catalog.get? w = some e → e.isAlias = false → m = n := by
  intro u
  have htended := (LooseByHand.ofBegin made.sound.sized hbegin).tended.afterCalls before
  obtain ⟨hhost, hclassified⟩ := classified_afterCalls hbegin before
  obtain ⟨e, he, hresolution⟩ := Catalog.resolve_eq_ok.1 houtcome
  have hrun : s.afterCalls (before ++ .writePointer slot (some w) :: after) =
      (s.afterCalls before).afterCalls (.writePointer slot (some w) :: after) := afterCalls_append ..
  have hlate := htended.afterCalls (.writePointer slot (some w) :: after)
  rw [← hrun] at hlate
  have hwritten : Develops (s.afterCalls before) (s.afterCalls (before ++ .writePointer slot (some w) :: after)) :=
    hrun ▸ htended.sound.develops _
  have hdevelops : Develops (s.afterCalls before) u := hwritten.trans (Call.relocate.develops_after hlate.sound)
  -- what was written is still there when the pass begins
  obtain ⟨i, hplace, hcell⟩ :=
    cell_of_writePointer htended hin hok houtcome hne hlast hfirst (by rw [hrun] at ho; exact ho)
  obtain ⟨o', a, n, ha, hbuffer, hbottom, hlength, hchain, hlisted, hput, hon, hn⟩ :=
    pointer_of_pass hbegin _ ho hmapped hpass (congrArg Prod.snd hcell) (congrArg Prod.fst hcell) hne
  have hslot : slot.toNat = a.buffer.bottom.toNat + wordBytes * i := by rw [hbuffer, hbottom]; exact hplace
  -- the offset of the object
  by_cases hw : u.OnChain o'.buffer w
  · obtain ⟨m, hm⟩ := hchain.total hw
    have hsame : m = n ↔ outcome.word = w := by
      refine ⟨fun heq => hchain.injective hon hw hn (heq ▸ hm), fun heq => hm.unique ?_⟩
      rw [heq] at hn
      exact hn
    refine ⟨a, i, m, n, ha, hslot, hlisted, hput, hn, hm, ?_, fun x hx hplain => hsame.2 ?_⟩
    · rw [hbuffer, hsame]
      exact ⟨fun heq _ => heq, fun heq => heq hw⟩
    · obtain rfl := Option.some_inj.1 (he.symm.trans hx)
      exact resolved_of_onChain made htended.sound hclassified hhost hheap he hplain hresolution hne
        (hw.congr hdevelops.frame.2.2.symm (Buffer.contains_congr hbottom hlength w).symm)
  · have hsized := (Call.relocate.tended_after hlate).inside.sized.positive
    have hm := hchain.offsetIs_resolved (Call.relocate.sound_after hlate.sound) hsized
      (htended.sound.books.keyed w e he) (fun _ => hdevelops.output_kept he) hresolution hne hw hon hn
    exact ⟨a, i, n, n, ha, hslot, hlisted, hput, hn, hm, ⟨fun _ hin' => absurd (hbuffer ▸ hin') hw, fun _ => rfl⟩,
      fun _ _ _ => rfl⟩

/-- The mixed heap is copied, with a block behind its mutable objects. -/
def mixedCalls : List Call :=
  [.gather [0x100000000010], .reserveBuffer ⟨0, 0, 16⟩, .copyMutable noTables, .allocateOther 8,
    .copyReadOnly noTables]

/-- That session with a pointer in the block, wired. -/
def mixedWritten : Session :=
  mixedSession.afterCalls (mixedCalls ++ .writePointer ⟨0x20040⟩ (some 0x100000000040) :: [.wire])

/-- A pointer to an object that was replaced, and that lies outside of the dependency. -/
theorem written_pointer_offset_mixed : ∃ a i n, (Call.relocate.after mixedWritten).archive? = some a ∧
    (a.buffer.words.read i).toNat = 0x8000 + n ∧
    (Call.relocate.after mixedWritten).OffsetIs 0x100000000040 n := by
  have hbegin : mixedBegun = .ok mixedSession := eq_ok_of_toOption (Option.some_get _).symm
  have hin : ∃ b ∈ mixedSession.blocks mixedCalls, b.Has (⟨0x20040⟩ : Addr .buffer).toNat := by decide +kernel
  have hok : ((writePointer ⟨0x20040⟩ (some 0x100000000040)).perform (mixedSession.afterCalls mixedCalls)).1 =
      .ok () := eq_ok_of_toOption (by decide +kernel)
  have houtcome : (mixedSession.afterCalls mixedCalls).catalog.resolve 0x100000000040 =
      .ok (.output ⟨0x20038⟩) := eq_ok_of_toOption (by decide +kernel)
  have hlast : ((Call.writePointer ⟨0x20040⟩ (some 0x100000000040)).after
      (mixedSession.afterCalls mixedCalls)).handles (⟨0x20040⟩ : Addr .buffer).toNat [.wire] = false := by
    decide +kernel
  have hpass : (relocate.perform mixedWritten).1 = .ok () := eq_ok_of_toOption (by decide +kernel)
  have hplace : mixedWritten.output?.any
      (fun o => o.buffer.bottom.toNat + o.buffer.length ≤ 0x100000000000) = true := by decide +kernel
  have hoff : (Call.relocate.after mixedWritten).archive?.any
      (·.buffer.range.contains 0x100000000040) = false := by decide +kernel
  have hforeign : (Call.relocate.after mixedWritten).dependency?.any
      (·.mapped.contains 0x100000000040) = false := by decide +kernel
  obtain ⟨o, ho, hbelow⟩ := (Option.any_eq_true _ _).1 hplace
  obtain ⟨hheap, hmapped⟩ := mixedHeap_apart (of_decide_eq_true hbelow)
  obtain ⟨a, i, m, n, ha, -, -, hput, -, hm, hsame, -⟩ :=
    written_pointer_offset mixedHeap_made hbegin hin hok houtcome (by decide) hlast (by simp) ho hheap hmapped hpass
  change (Call.relocate.after mixedWritten).archive? = some a at ha
  rw [ha, Option.any_some] at hoff
  refine ⟨a, i, m, ha, ?_, hm⟩
  rw [hput, hsame.2]
  · rfl
  · rintro (⟨d, hd, hw⟩ | hw)
    · change (Call.relocate.after mixedWritten).dependency? = some d at hd
      rw [hd, Option.any_some, hw] at hforeign
      cases hforeign
    · rw [hoff] at hw
      cases hw

/-- A heap whose object of the dependency is replaced by one that is copied. -/
def replacedHeap : Heap :=
  (Heap.create 0x100000000000 2).afterCalls
    [.allocInDependency .other 2, .alloc .other 2 none, .alloc .other 1 none,
      .setPointer 0x100000000010 0 (some 0x100000000000) none, .substitute 0x100000000000 0x100000000020]

/-- A session over that heap, as it begins. -/
def replacedBegun : Except BuildError Session :=
  begin replacedHeap.toHost ⟨⟨0x20000⟩, 0x1000, room_fits⟩ ⟨0x8000, 8, 0, false⟩
    replacedHeap.dependencyRange? false

/-- The session over that heap. -/
def replacedSession : Session := replacedBegun.toOption.get (by decide +kernel)

/-- The heap is copied, with a block behind its mutable objects. -/
def replacedCalls : List Call :=
  [.gather [0x100000000010, 0x100000000020], .reserveBuffer ⟨0, 0, 16⟩, .copyMutable noTables,
    .allocateOther 8, .copyReadOnly noTables]

/-- That session with a pointer in the block, wired. -/
def replacedWritten : Session :=
  replacedSession.afterCalls (replacedCalls ++ .writePointer ⟨0x20028⟩ (some 0x100000000000) :: [.wire])

/-- A pointer to an object that was replaced, and that lies in the dependency. It is put at offset
    `48`, the one of the copy, and the offset of the object is that of its place in the
    dependency. -/
theorem written_pointer_offset_replaced :
    replacedHeap.Made ∧ replacedBegun = .ok replacedSession ∧
    (replacedSession.afterCalls replacedCalls).stage = .readOnlyCopied ∧
    (∃ b ∈ replacedSession.blocks replacedCalls, b.Has (⟨0x20028⟩ : Addr .buffer).toNat) ∧
    (replacedSession.afterCalls replacedCalls).catalog.resolve 0x100000000000 = .ok (.output ⟨0x20020⟩) ∧
    ((writePointer ⟨0x20028⟩ (some 0x100000000000)).perform (replacedSession.afterCalls replacedCalls)).1 =
      .ok () ∧
    replacedWritten.stage = .wired ∧ (relocate.perform replacedWritten).1 = .ok () ∧
    (Call.relocate.after replacedWritten).archive?.map (fun a => (a.buffer.bottom.toNat, a.buffer.words.read 5)) =
      some (0x20000, 0x8000 + 48) ∧
    (Call.relocate.after replacedWritten).OffsetIs 0x100000000000 0 :=
  ⟨(Heap.Made.create (by decide) (by decide)).afterCalls _, eq_ok_of_toOption (Option.some_get _).symm,
    by decide +kernel, by decide +kernel, eq_ok_of_toOption (by decide +kernel),
    eq_ok_of_toOption (by decide +kernel), by decide +kernel, eq_ok_of_toOption (by decide +kernel),
    by decide +kernel, eq_ok_of_toOption (by decide +kernel)⟩

end Session

end SnapshotArchive
