import Mathlib.Tactic.Common
import SnapshotArchive.Proofs.LastWrites

/-!
Words that are put together by hand, in the archive. A session is run beside one that is called in the same
way, but without the calls that handle pointers by hand. The two stay alike outside of the blocks that were
allocated by hand; so the final pass makes the same of all other words, and what it makes of the words of
the blocks is decided by what was stored there last.
-/

namespace SnapshotArchive

open SessionM

theorem AddrRange.eq_of_bounds {p : Space} {r r' : AddrRange p} (hbottom : r.bottom = r'.bottom)
    (htop : r.top = r'.top) : r = r' := by
  cases r
  cases r'
  congr

namespace Session

/-- Sessions `s` and `t` side by side. In `t` no pointer is handled by hand. -/
structure Beside (blocks : List Span) (last? : Nat → Option SlotValue) (s t : Session) : Prop where
  inside : s.Inside fun _ => True
  sound : t.Sound
  spread : Spread blocks s
  written : ∀ n, last? n ≠ none → ∃ b ∈ blocks, b.Has n
  /-- Without a buffer there is no difference. -/
  alike : (t = s ∧ s.output? = none) ∨ ∃ bottom, s.Alike (.ofBlocks bottom blocks last?) t

end Session

namespace Call

open Session

variable {c : Call} {s t : Session} {blocks : List Span} {last? : Nat → Option SlotValue}

theorem slot?_of_storedAt? {n : Nat} (h : c.storedAt? s n ≠ none) :
    ∃ slot, c.slot? = some slot ∧ slot.toNat = n := by
  unfold storedAt? at h
  split at h
  · rename_i hanswered
    obtain ⟨-, hslot⟩ := Bool.and_eq_true_iff.1 hanswered
    obtain ⟨slot, hslot, hn⟩ := (Option.any_eq_true _ _).1 hslot
    exact ⟨slot, hslot, beq_iff_eq.1 hn⟩
  · exact absurd rfl h

/-- An output `o` as it is reserved has nothing in it that was put together by hand. -/
theorem alike_fresh {a : Advisories} {o : Output} (h : Fresh s a o) (last? : Nat → Option SlotValue) :
    o.Alike (.ofBlocks o.buffer.bottom [] last?) o := by
  have hnowhere (i : Nat) : ¬(Patch.ofBlocks o.buffer.bottom [] last?).covers i := by
    rintro ⟨_, hb, -⟩
    cases hb
  exact {
    same := rfl
    bottom := rfl
    arena := h.arena
    length := h.length
    off := fun _ _ => rfl
    held := fun i hi => absurd hi (hnowhere i)
    plain := fun i hi => absurd hi (hnowhere i)
    below := fun i hi => absurd hi (hnowhere i)
    blank := fun i _ => Prod.ext (h.words i) (h.marks i) }

/-- A call `c` on a session without a buffer answers no block. -/
theorem alike_after_bare (last? : Nat → Option SlotValue) (h : s.Inside fun _ => True)
    (hspread : Spread blocks s) (hnone : s.output? = none) (c : Call) :
    c.block? s = none ∧ ((c.after s).output? = none ∨
      ∃ bottom, (c.after s).Alike (.ofBlocks bottom blocks last?) (c.after s)) := by
  have hblock : c.block? s = none := Option.eq_none_iff_forall_ne_some.2 fun b hb => by
    obtain ⟨-, o, -, ho, -⟩ := block?_bounds h.sound hb
    exact nomatch hnone.symm.trans ho
  refine ⟨hblock, ?_⟩
  by_cases hreserve : ∃ a, c = reserveBuffer a
  · obtain ⟨a, rfl⟩ := hreserve
    obtain ⟨_, -, -, o, hfresh, hs'⟩ | ⟨_, -, hs'⟩ := (triple_reserveBuffer h.sound.settings a).perform rfl
    · obtain ⟨rfl, -⟩ := hspread.bare hnone h.sound
      have hafter : (reserveBuffer a).after s = { s with output? := some o, stage := .reserved } := hs'
      rw [hafter]
      exact .inr ⟨o.buffer.bottom, o, o, rfl, rfl, alike_fresh hfresh last?, h.sized.positive⟩
    · have hafter : (reserveBuffer a).after s = s := hs'
      rw [hafter]
      exact .inl hnone
  · exact .inl (output_after_bare h.sound hnone fun a ha => hreserve ⟨a, ha⟩)

end Call

namespace SessionM

variable {s t : Session} {o o' q q' : Output}

/-- The final pass makes the same of word `i` in both outputs, if it is the same and pointers lead
    to the same. -/
theorem Landed.read_congr {i : Nat} (h : Landed s o q) (h' : Landed t o' q')
    (hlanding : ∀ w, t.landing o' w = s.landing o w)
    (hword : o'.buffer.words.read i = o.buffer.words.read i) (hmark : o'.pointers.has i = o.pointers.has i) :
    q'.buffer.words.read i = q.buffer.words.read i := by
  by_cases hpointer : o.pointers.has i = true ∧ o.buffer.words.read i ≠ 0
  · obtain ⟨n, hn, hlanded⟩ := h.marked i hpointer.1 hpointer.2
    obtain ⟨n', hn', hlanded'⟩ := h'.marked i (hmark ▸ hpointer.1) (hword ▸ hpointer.2)
    rw [hlanding, hword, hn, Option.some_inj] at hn'
    rw [hlanded, hlanded', hn']
  · have hplain : o.pointers.has i = false ∨ o.buffer.words.read i = 0 := by
      rwa [not_and_or, Bool.not_eq_true, ne_eq, not_not] at hpointer
    rw [h.others i hplain, h'.others i (by rwa [hmark, hword]), hword]

end SessionM

namespace Session

open Call

variable {s t : Session} {o o' : Output} {p : Patch} {blocks : List Span} {last? : Nat → Option SlotValue}

namespace Beside

/-- The parts of the invariant that no call `c` by itself endangers. -/
theorem next (h : Beside blocks last? s t) {c : Call}
    (hslot : ∀ slot ∈ c.slot?, ∃ b ∈ blocks, b.Has slot.toNat) {t' : Session} (ht : t'.Sound)
    (halike : (t' = c.after s ∧ (c.after s).output? = none) ∨ ∃ bottom, (c.after s).Alike
      (.ofBlocks bottom (blocks ++ (c.block? s).toList) fun n => (c.storedAt? s n).or (last? n)) t') :
    Beside (blocks ++ (c.block? s).toList) (fun n => (c.storedAt? s n).or (last? n)) (c.after s) t' where
  inside := (c.inside_after h.inside).mono fun _ _ _ => trivial
  sound := ht
  spread := c.spread_after h.inside.sound h.inside.host h.spread
  written n hn := by
    by_cases hstored : c.storedAt? s n = none
    · rw [hstored, Option.none_or] at hn
      obtain ⟨b, hb, hhas⟩ := h.written n hn
      exact ⟨b, List.mem_append_left _ hb, hhas⟩
    · obtain ⟨slot, hc, rfl⟩ := slot?_of_storedAt? hstored
      obtain ⟨b, hb, hhas⟩ := hslot slot hc
      exact ⟨b, List.mem_append_left _ hb, hhas⟩
  alike := halike

/-- A call `c` that is about no slot is made on both sides. -/
theorem after_other (h : Beside blocks last? s t) {c : Call} (hslot : c.slot? = none) (hc : c ≠ .relocate) :
    c.block? t = c.block? s ∧ Beside (blocks ++ (c.block? s).toList)
      (fun n => (c.storedAt? s n).or (last? n)) (c.after s) (c.after t) := by
  have hnext := h.next (c := c) (fun slot hs => nomatch hslot.symm.trans hs) (c.sound_after h.sound)
  simp only [storedAt?_eq_none hslot, Option.none_or] at hnext ⊢
  rcases h.alike with ⟨rfl, hnone⟩ | ⟨bottom, halike⟩
  · obtain ⟨hblock, hafter⟩ := alike_after_bare last? h.inside h.spread hnone c
    rw [hblock, Option.toList_none, List.append_nil] at hnext ⊢
    exact ⟨rfl, hnext (hafter.imp_left fun hnone' => ⟨rfl, hnone'⟩)⟩
  · by_cases hallocate : ∃ n, c = .allocateOther n
    · obtain ⟨n, rfl⟩ := hallocate
      obtain ⟨hblock, hafter⟩ := alike_after_allocateOther h.spread h.written halike n
      exact ⟨hblock, hnext (.inr ⟨bottom, hafter⟩)⟩
    · have hallocate : ∀ n, c ≠ .allocateOther n := fun n hn => hallocate ⟨n, hn⟩
      have hblock (r : Session) : c.block? r = none := block?_other hallocate
      rw [hblock, Option.toList_none, List.append_nil] at hnext
      rw [hblock, hblock, Option.toList_none, List.append_nil]
      exact ⟨rfl, hnext (.inr ⟨bottom,
        alike_after h.inside.sound h.inside.sized h.spread halike c hslot hc hallocate⟩)⟩

/-- A call `c` that is about a slot of a block is made on the right only if it handles no
    pointer. -/
theorem after_slot (h : Beside blocks last? s t) {c : Call} {slot : Addr .buffer}
    (hslot : c.slot? = some slot) (hin : ∃ b ∈ blocks, b.Has slot.toNat) :
    Beside (blocks ++ (c.block? s).toList) (fun n => (c.storedAt? s n).or (last? n)) (c.after s)
      (if c.handlesPointer then t else c.after t) := by
  have hslots : ∀ slot ∈ c.slot?, ∃ b ∈ blocks, b.Has slot.toNat := by
    intro slot' hslot'
    obtain rfl := Option.some_inj.1 (hslot.symm.trans hslot')
    exact hin
  have ht : (if c.handlesPointer then t else c.after t).Sound := by
    split
    · exact h.sound
    · exact c.sound_after h.sound
  refine h.next hslots ht (.inr ?_)
  rw [block?_of_slot? hslot, Option.toList_none, List.append_nil]
  rcases h.alike with ⟨-, hnone⟩ | ⟨bottom, halike⟩
  · obtain ⟨rfl, -⟩ := h.spread.bare hnone h.inside.sound
    obtain ⟨b, hb, -⟩ := hin
    cases hb
  · have hleft := alike_after_slot hslot hin halike
    refine ⟨bottom, ?_⟩
    cases c with
    | writeWord slot' w =>
      cases hslot
      refine alike_writeWord_right w hleft fun n hn hdvd => ?_
      have hindex : wordBytes * (n / wordBytes) = n := Nat.mul_div_cancel' hdvd
      change ∃ b ∈ blocks, b.Has (bottom.toNat + wordBytes * (n / wordBytes))
      rw [hindex, ← show slot.toNat = bottom.toNat + n from hn]
      exact hin
    | markPointer | setPointer | clearPointer | writePointer => exact hleft
    | _ => cases hslot

/-- A call `c` is made on the left, and on the right unless it handles a pointer. -/
theorem after_call (h : Beside blocks last? s t) {c : Call} (hc : c ≠ .relocate)
    (hslots : ∀ slot ∈ c.slot?, ∃ b ∈ blocks, b.Has slot.toNat) :
    ∃ t', Beside (blocks ++ (c.block? s).toList) (fun n => (c.storedAt? s n).or (last? n)) (c.after s) t' ∧
      ∀ rest, t.blocks ((c :: rest).filter (!·.handlesPointer)) =
          (c.block? s).toList ++ t'.blocks (rest.filter (!·.handlesPointer)) ∧
        t.afterCalls ((c :: rest).filter (!·.handlesPointer)) =
          t'.afterCalls (rest.filter (!·.handlesPointer)) := by
  cases hslot : c.slot? with
  | none =>
    have hplain : c.handlesPointer = false := by
      cases c with
      | markPointer | setPointer | clearPointer | writePointer => cases hslot
      | _ => rfl
    obtain ⟨hblock, hnext⟩ := h.after_other hslot hc
    refine ⟨_, hnext, fun rest => ?_⟩
    rw [List.filter_cons_of_pos (by rw [hplain]; rfl), Session.blocks, hblock]
    exact ⟨rfl, rfl⟩
  | some slot =>
    have hnext := h.after_slot hslot (hslots slot hslot)
    refine ⟨_, hnext, fun rest => ?_⟩
    rw [block?_of_slot? hslot, Option.toList_none, List.nil_append]
    cases hpointer : c.handlesPointer with
    | true =>
      rw [List.filter_cons_of_neg (by rw [hpointer]; decide), if_pos rfl]
      exact ⟨rfl, rfl⟩
    | false =>
      rw [List.filter_cons_of_pos (by rw [hpointer]; rfl), if_neg (by decide), Session.blocks,
        block?_of_slot? hslot]
      exact ⟨rfl, rfl⟩

/-- The two sessions stay side by side, whatever `calls` are made. -/
theorem afterCalls (h : Beside blocks last? s t) {calls : List Call} (hcalls : ∀ c ∈ calls, c ≠ .relocate)
    (hkeeps : s.KeepsToBlocks blocks calls) :
    t.blocks (calls.filter (!·.handlesPointer)) = s.blocks calls ∧
    Beside (blocks ++ s.blocks calls) (s.lastStored last? calls) (s.afterCalls calls)
      (t.afterCalls (calls.filter (!·.handlesPointer))) := by
  -- the blocks and what was stored in them grow along the calls
  induction calls generalizing s t blocks last? with
  | nil =>
    refine ⟨rfl, ?_⟩
    rw [Session.blocks, List.append_nil]
    exact h
  | cons c rest ih =>
    obtain ⟨hc, hrest⟩ := List.forall_mem_cons.1 hcalls
    obtain ⟨hslots, hkeeps⟩ := hkeeps
    obtain ⟨t', hnext, hright⟩ := h.after_call hc hslots
    obtain ⟨hblocks, hlast⟩ := ih hnext hrest hkeeps
    rw [List.append_assoc] at hlast
    rw [(hright rest).1, (hright rest).2, hblocks]
    exact ⟨rfl, hlast⟩

/-- A session `s` that begins is beside itself. -/
theorem ofBegin {host : Host} {reservations : Reservations} {settings : Settings}
    {mapped? : Option (AddrRange .mapped)} {alive : Bool} (hhost : host.Sized)
    (hbegin : begin host reservations settings mapped? alive = .ok s) : Beside [] (fun _ => none) s s where
  inside := inside_begin hhost hbegin
  sound := sound_begin hbegin
  spread := spread_begin hbegin
  written _ hn := absurd rfl hn
  alike := by
    obtain ⟨-, d?, -, rfl⟩ := begin_eq_ok hbegin
    exact .inl ⟨rfl, rfl⟩

end Beside

/-- If the final pass succeeds on `s`, it does so on `t`. -/
theorem AlikeAt.landed (h : AlikeAt p o o' s t) (hs : s.Sound) (ht : t.Sound)
    (hok : (relocate.perform s).1 = .ok ()) : (∀ w, t.landing o' w = s.landing o w) ∧
    ∃ q q', Landed s o q ∧ Call.relocate.after s = { s with output? := some q, stage := .relocated } ∧
      Landed t o' q' ∧ Call.relocate.after t = { t with output? := some q', stage := .relocated } := by
  have hstage : s.stage = .wired := stage_of_perform hok
  have hstage' : t.stage = .wired := by rw [h.right]; exact hstage
  have hlanding : ∀ w, t.landing o' w = s.landing o w :=
    landing_congr (by rw [h.right]) h.alike.bottom_eq h.alike.requested_eq (by rw [h.alike.arena_eq])
  refine ⟨hlanding, ?_⟩
  obtain ⟨_, -, q, hland, hafter⟩ | ⟨_, herror, -⟩ := (triple_relocate_halted hs h.left hstage).perform rfl
  swap
  · exact nomatch hok.symm.trans herror
  have ho' : t.output? = some o' := by rw [h.right]
  obtain ⟨_, -, q', hland', hafter'⟩ | ⟨_, -, i, q', hhalt, -⟩ :=
    (triple_relocate_halted ht ho' hstage').perform rfl
  · exact ⟨q, q', hland, hafter, hland', hafter'⟩
  -- a word that leads nowhere is marked, so it is none of the patch, and the left side has it as well
  · obtain ⟨hmark, hne, hnone, -⟩ := hhalt.offends
    have hout : ¬p.covers i := fun hcovered =>
      Bool.false_ne_true ((h.alike.plain i hcovered).symm.trans hmark)
    obtain ⟨n, hn, -⟩ := hland.marked i (h.alike.has_off hout ▸ hmark) (h.alike.read_off hout ▸ hne)
    rw [hlanding, h.alike.read_off hout, hn] at hnone
    cases hnone

/-- The words of `blocks` hold in `a` what was stored there last, as it is requested. -/
structure HoldsHandmade (s : Session) (o : Output) (blocks : List Span) (last? : Nat → Option SlotValue)
    (a : Archive) : Prop where
  /-- A pointer that was stored last is shifted, and it is marked. -/
  pointers : ∀ i, (∃ x ∈ blocks, x.Has (a.buffer.bottom.toNat + wordBytes * i)) → ∀ w, w ≠ 0 →
    last? (a.buffer.bottom.toNat + wordBytes * i) = some ⟨w, true⟩ →
    s.Shifts o a.requested w (a.buffer.words.read i) ∧ a.pointers.has i = true
  /-- Where null was stored last, or nothing, there is zero without a mark. -/
  nulls : ∀ i, (∃ x ∈ blocks, x.Has (a.buffer.bottom.toNat + wordBytes * i)) →
    (∀ v, last? (a.buffer.bottom.toNat + wordBytes * i) = some v → v.word = 0) →
    a.buffer.words.read i = 0 ∧ a.pointers.has i = false

/-- The archives `a` and `b` differ at most in words of `blocks`. -/
structure SameOutside (blocks : List Span) (a b : Archive) : Prop where
  words : ∀ i, (¬∃ x ∈ blocks, x.Has (a.buffer.bottom.toNat + wordBytes * i)) →
    a.buffer.words.read i = b.buffer.words.read i ∧ a.pointers.has i = b.pointers.has i
  bottom : a.buffer.bottom = b.buffer.bottom
  length : a.buffer.length = b.buffer.length
  mutable : a.mutable = b.mutable
  readOnly : a.readOnly = b.readOnly
  requested : a.requested = b.requested

namespace AlikeAt

variable {bottom : Addr .buffer} {a b : Archive}

/-- What the final pass makes of a patch that shows what was stored there last. -/
theorem holdsHandmade (h : AlikeAt (.ofBlocks bottom blocks last?) o o' s t) (hfin : s.Finished o a) :
    HoldsHandmade s o blocks last? a := by
  obtain rfl : a.buffer.bottom = bottom := hfin.bottom.trans h.alike.bottom
  refine ⟨fun i hin w hw hlast => ?_, fun i hin hlast => ?_⟩
  · have hshows : SlotValue.Shows (last? _) (o.cell i) := h.alike.held i hin
    rw [hlast] at hshows
    have hword : o.buffer.words.read i = w := hshows.word
    have hmark : o.pointers.has i = true := hshows.noted rfl (by rw [hshows.word]; exact hw)
    rw [hfin.marks, hmark, hword]
    exact ⟨hword ▸ hfin.pointers i hmark (hword ▸ hw), by simpa using hw⟩
  · have hshows : SlotValue.Shows (last? _) (o.cell i) := h.alike.held i hin
    have hword : o.buffer.words.read i = 0 := by
      refine hshows.word.trans ?_
      cases hv : last? (a.buffer.bottom.toNat + wordBytes * i) with
      | none => rfl
      | some v => exact hlast v hv
    rw [hfin.others i (.inr hword), hfin.marks, hword, bne_self_eq_false, Bool.and_false]
    exact ⟨rfl, rfl⟩

/-- The final pass keeps the sides alike outside of `blocks`. -/
theorem archives (h : AlikeAt (.ofBlocks bottom blocks last?) o o' s t) (hs : s.Sound) (ht : t.Sound)
    (hok : (relocate.perform s).1 = .ok ()) :
    ∃ a b, (Call.relocate.after s).archive? = some a ∧ (Call.relocate.after t).archive? = some b ∧
      HoldsHandmade s o blocks last? a ∧ SameOutside blocks a b := by
  obtain ⟨hlanding, q, q', hland, hafter, hland', hafter'⟩ := h.landed hs ht hok
  obtain ⟨a, ha, hfin⟩ := finished_of_landed hs hland
  obtain ⟨b, hb, hfin'⟩ := finished_of_landed ht hland'
  refine ⟨a, b, by rw [hafter, ha], by rw [hafter', hb], h.holdsHandmade hfin, ?_⟩
  have hbottom : a.buffer.bottom = bottom := hfin.bottom.trans h.alike.bottom
  have hlow : a.requested.bottom = b.requested.bottom := by
    rw [hfin.requested_bottom, hfin'.requested_bottom, h.alike.requested_eq]
  have hhigh : a.requested.top = b.requested.top := Addr.toNat_inj.1 <| by
    rw [hfin.requested_top, hfin'.requested_top, h.alike.requested_eq, h.alike.arena_eq]
  refine {
    words := fun i hout => ?_
    bottom := by rw [hfin.bottom, hfin'.bottom, h.alike.bottom_eq]
    length := by rw [hfin.length, hfin'.length, h.alike.length_eq]
    mutable := by rw [hfin.mutable, hfin'.mutable, h.alike.arena_eq]
    readOnly := by rw [hfin.readOnly, hfin'.readOnly, h.alike.arena_eq]
    requested := AddrRange.eq_of_bounds hlow hhigh }
  rw [hbottom] at hout
  have hword := h.alike.read_off hout
  have hmark := h.alike.has_off hout
  rw [hfin.marks, hfin'.marks, hword, hmark, buffer_of_archive? ha rfl, buffer_of_archive? hb rfl]
  exact ⟨(hland.read_congr hland' hlanding hword hmark).symm, rfl⟩

end AlikeAt

/-- Pointers that are put together by hand end up where the last write put them. When the first
    final pass succeeds after `calls`, each word of the blocks that were allocated by hand is what
    was stored there last, as it is requested: a pointer is shifted and marked, null is zero and not
    marked. The rest of the archive is the same as without the calls that handle pointers. -/
theorem handmade_exact {host : Host} {reservations : Reservations} {settings : Settings}
    {mapped? : Option (AddrRange .mapped)} {alive : Bool} (hhost : host.Sized)
    (hbegin : begin host reservations settings mapped? alive = .ok s) {calls : List Call}
    (hfirst : ∀ c ∈ calls, c ≠ .relocate) (hkeeps : s.KeepsToBlocks [] calls)
    (hok : (relocate.perform (s.afterCalls calls)).1 = .ok ()) :
    let others := calls.filter (!·.handlesPointer)
    s.blocks others = s.blocks calls ∧
    ∃ o a b, (s.afterCalls calls).output? = some o ∧
      (s.afterCalls (calls ++ [.relocate])).archive? = some a ∧
      (s.afterCalls (others ++ [.relocate])).archive? = some b ∧
      HoldsHandmade (s.afterCalls calls) o (s.blocks calls) (s.lastStored (fun _ => none) calls) a ∧
      SameOutside (s.blocks calls) a b := by
  intro others
  obtain ⟨hblocks, hbeside⟩ := (Beside.ofBegin hhost hbegin).afterCalls hfirst hkeeps
  rw [List.nil_append] at hbeside
  refine ⟨hblocks, ?_⟩
  have hsound := hbeside.inside.sound
  rcases hbeside.alike with ⟨-, hnone⟩ | ⟨bottom, o, o', halike⟩
  · have hrank := (hsound.bare hnone).1
    rw [stage_of_perform hok] at hrank
    exact absurd hrank (by decide)
  · obtain ⟨a, b, ha, hb, hsettled⟩ := halike.archives hsound hbeside.sound hok
    rw [afterCalls_append, afterCalls_append]
    exact ⟨o, a, b, halike.left, ha, hb, hsettled⟩

/-- Four words are put together by hand. The third one keeps its mark when null is stored in it; clearing
    the first one is refused. -/
def handmadeCalls : List Call :=
  [.gather [0x100000000000], .reserveBuffer ⟨0, 0, 64⟩, .allocateOther 28, .setPointer ⟨0x20010⟩ ⟨0x20028⟩,
    .setPointer ⟨0x20020⟩ ⟨0x20010⟩, .copyMutable noTables, .allocateOther 8, .copyReadOnly noTables,
    .writePointer ⟨0x20018⟩ (some 0x100000000018), .setPointer ⟨0x20020⟩ ⟨0⟩, .wire, .clearPointer ⟨0x20010⟩]

/-- A pointer within a block, one to a copy, a null with a mark that is dropped, and a word that is never
    written. -/
theorem handmade_exact_described :
    begin describedHeap.toHost ⟨⟨0x20000⟩, 0x1000, room_fits⟩ ⟨0x8000, 8, 0, false⟩ none false =
      .ok describedFresh ∧
    (∀ c ∈ handmadeCalls, c ≠ .relocate) ∧ describedFresh.KeepsToBlocks [] handmadeCalls ∧
    (relocate.perform (describedFresh.afterCalls handmadeCalls)).1 = .ok () ∧
    ∃ o a, (describedFresh.afterCalls handmadeCalls).output? = some o ∧
      (describedFresh.afterCalls (handmadeCalls ++ [.relocate])).archive? = some a ∧
      ((describedFresh.afterCalls handmadeCalls).Shifts o a.requested 0x20028 (a.buffer.words.read 2) ∧
        a.pointers.has 2 = true) ∧
      ((describedFresh.afterCalls handmadeCalls).Shifts o a.requested 0x20048 (a.buffer.words.read 3) ∧
        a.pointers.has 3 = true) ∧
      (a.buffer.words.read 4 = 0 ∧ a.pointers.has 4 = false) ∧
      a.buffer.words.read 5 = 0 ∧ a.pointers.has 5 = false := by
  have hbegin : begin describedHeap.toHost ⟨⟨0x20000⟩, 0x1000, room_fits⟩ ⟨0x8000, 8, 0, false⟩ none false =
      .ok describedFresh := begin_fresh (by decide +kernel)
  have hfirst : ∀ c ∈ handmadeCalls, c ≠ .relocate := by simp [handmadeCalls]
  have hkeeps : describedFresh.KeepsToBlocks [] handmadeCalls := by decide +kernel
  have hok : (relocate.perform (describedFresh.afterCalls handmadeCalls)).1 = .ok () := by decide +kernel
  have hblocks : describedFresh.blocks handmadeCalls = [⟨0x20010, 0x2002c⟩, ⟨0x20050, 0x20058⟩] := by
    decide +kernel
  have hlast : [0x20010, 0x20018, 0x20020, 0x20028].map
      (describedFresh.lastStored (fun _ => none) handmadeCalls) =
      [some ⟨0x20028, true⟩, some ⟨0x20048, true⟩, some ⟨0, true⟩, none] := by decide +kernel
  have hbottom : ((describedFresh.afterCalls (handmadeCalls ++ [.relocate])).archive?.map
      (·.buffer.bottom.toNat)) = some 0x20000 := by decide +kernel
  have hexact := (handmade_exact describedHeap_made.sound.sized hbegin hfirst hkeeps hok).2
  rw [hblocks] at hexact
  refine ⟨hbegin, hfirst, hkeeps, hok, ?_⟩
  -- the run is evaluated above; from here on only what it left is needed
  generalize describedFresh.lastStored (fun _ => none) handmadeCalls = last? at hlast hexact
  generalize describedFresh.afterCalls (handmadeCalls ++ [.relocate]) = after at hbottom hexact ⊢
  obtain ⟨o, a, b, ho, ha, -, hholds, -⟩ := hexact
  rw [ha, Option.map_some, Option.some_inj] at hbottom
  simp only [List.map_cons, List.map_nil, List.cons.injEq, and_true] at hlast
  obtain ⟨h2, h3, h4, h5⟩ := hlast
  have hin (i : Nat) (hlow : 2 ≤ i) (hhigh : i < 6) : ∃ x ∈ [(⟨0x20010, 0x2002c⟩ : Span), ⟨0x20050, 0x20058⟩],
      x.Has (a.buffer.bottom.toNat + wordBytes * i) := by
    refine ⟨_, List.mem_cons_self .., ?_⟩
    unfold Span.Has wordBytes
    dsimp only
    omega
  have hword (i : Nat) : a.buffer.bottom.toNat + wordBytes * i = 0x20000 + wordBytes * i := by rw [hbottom]
  refine ⟨o, a, ho, ha, hholds.pointers 2 (hin 2 (by decide) (by decide)) 0x20028 (by decide) ?_,
    hholds.pointers 3 (hin 3 (by decide) (by decide)) 0x20048 (by decide) ?_,
    hholds.nulls 4 (hin 4 (by decide) (by decide)) fun v hv => ?_,
    hholds.nulls 5 (hin 5 (by decide) (by decide)) fun v hv => ?_⟩
  · rw [hword]
    exact h2
  · rw [hword]
    exact h3
  · rw [hword] at hv
    obtain rfl := Option.some_inj.1 (h4.symm.trans hv)
    rfl
  · rw [hword] at hv
    exact nomatch h5.symm.trans hv

end Session

end SnapshotArchive
