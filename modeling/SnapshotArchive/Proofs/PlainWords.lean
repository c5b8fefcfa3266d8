import Mathlib.Tactic.Common
import SnapshotArchive.Proofs.ChainOffsets
import SnapshotArchive.Proofs.LooseWords

/-!
Words that are no pointers. A word that leads nowhere, and that is stored last in a slot of a block, stays as
it is through all that follows, the final pass included. Storing it does not take back the mark that a
pointer left in the slot, though, and no pass gets past a marked word that leads nowhere.
-/

namespace SnapshotArchive

open SessionM

namespace Session

variable {blocks : List Span} {s : Session} {slot : Addr .buffer} {i : Nat} {v : Word} {hand : Bool}

/-- The word `v` leads neither into the buffer nor into the dependency. -/
structure Nowhere (s : Session) (o : Output) (v : Word) : Prop where
  own : o.buffer.range.contains v = false
  foreign : ∀ d, s.dependency? = some d → d.mapped.contains v = false

/-- Such a word `v` has no place where the archives are requested. -/
theorem Nowhere.landing {o : Output} (h : s.Nowhere o v) (hs : s.Sound) (ho : s.output? = some o)
    (hrank : 4 ≤ s.stage.rank) : s.landing o v = none := by
  have hroom := pack_top_le (hs.filled o ho) hrank
  unfold Session.landing
  rw [if_neg, Option.map_eq_none_iff, Option.filter_eq_none_iff]
  · intro d hd
    rw [h.foreign d hd]
    decide
  · rintro ⟨hlow, hhigh⟩
    have hin : o.buffer.range.contains v = true := by
      rw [AddrRange.contains_iff, Buffer.range_top]
      exact ⟨hlow, by omega⟩
    rw [h.own] at hin
    cases hin

/-- Word `i` of the buffer is the slot in which `v` was stored last, when the slot was marked or not as `hand`
    says. -/
structure PlainIn (s : Session) (o : Output) (slot : Addr .buffer) (i : Nat) (v : Word) (hand : Bool) :
    Prop where
  nowhere : s.Nowhere o v
  place : slot.toNat = o.buffer.bottom.toNat + wordBytes * i
  word : o.buffer.words.read i = v
  marked : o.pointers.has i = true → hand = true
  kept : hand = true → v ≠ 0 → o.pointers.has i = true
  dropped : s.stage = .relocated → o.pointers.has i = false

/-- The `slot` lies in a block, and holds the `v` that was stored last. -/
structure PlainAt (blocks : List Span) (slot : Addr .buffer) (i : Nat) (v : Word) (hand : Bool)
    (s : Session) : Prop where
  tended : Tended blocks s
  within : ∃ b ∈ blocks, b.Has slot.toNat
  holds : ∃ o, s.output? = some o ∧ s.PlainIn o slot i v hand

end Session

namespace SessionM

open Session

variable {s : Session} {o o' : Output} {i : Nat} {v : Word}

/-- What is answered with an open output, such as `a`, is answered before the final pass. -/
theorem open_of_perform {α : Type} {step : String} {f : Output → SessionM α} {a : α}
    (hok : ((openOutput step >>= f).perform s).1 = .ok a) : s.stage ≠ .relocated := by
  intro hstage
  have hrefused : Triple (· = s) (openOutput step >>= f) (fun _ _ => False) (fun _ _ => True) := by
    rintro r rfl
    rw [wp_bind, wp_openOutput, hstage]
    cases r.session.output? <;> trivial
  obtain ⟨_, -, hfalse⟩ | ⟨_, herror, -⟩ := hrefused.perform rfl
  · exact hfalse
  · exact nomatch hok.symm.trans herror

/-- A final pass that succeeds leaves a word `v` that leads nowhere, and drops its mark. The word
    was null, or it was not marked. -/
theorem Landed.plain (h : Landed s o o') (hnone : s.landing o v = none) (hword : o.buffer.words.read i = v) :
    (o.pointers.has i = true → v = 0) ∧ o'.buffer.words.read i = v ∧ o'.pointers.has i = false := by
  have hnull (hmark : o.pointers.has i = true) : v = 0 := by
    by_contra hne
    obtain ⟨n, hn, -⟩ := h.marked i hmark (hword ▸ hne)
    rw [hword, hnone] at hn
    cases hn
  have hplain : o.pointers.has i = false ∨ o.buffer.words.read i = 0 := by
    cases hmark : o.pointers.has i with
    | false => exact .inl rfl
    | true => exact .inr (hword.trans (hnull hmark))
  refine ⟨hnull, (h.others i hplain).trans hword, ?_⟩
  rw [h.marks, Bool.and_eq_false_iff, bne_eq_false_iff_eq]
  exact hplain

/-- A final pass that stops at slot `k` leaves a word `v` that leads nowhere: it gets no further
    than to it. -/
theorem Halted.plain {k : Nat} (h : Halted s o k o') (hnone : s.landing o v = none)
    (hword : o.buffer.words.read i = v) : o'.buffer.words.read i = v := by
  refine (h.others i ?_).trans hword
  by_contra hpointer
  rw [not_or, not_or, Bool.not_eq_false, Nat.not_le] at hpointer
  obtain ⟨hmark, hne, hlt⟩ := hpointer
  have hsome := h.offends.2.2.2 i hlt hmark hne
  rw [hword, hnone] at hsome
  cases hsome

end SessionM

namespace Session

section

variable {s s' : Session} {o o' : Output} {slot : Addr .buffer} {i : Nat} {v : Word} {hand : Bool}

theorem Nowhere.congr (h : s.Nowhere o v) (hdependency : s'.dependency? = s.dependency?)
    (hbottom : o'.buffer.bottom = o.buffer.bottom) (hlength : o'.buffer.length = o.buffer.length) :
    s'.Nowhere o' v :=
  ⟨(Buffer.contains_congr hbottom hlength v).trans h.own, hdependency ▸ h.foreign⟩

/-- A final pass that succeeds drops the mark of word `i`, if there is one. -/
theorem PlainIn.landed (h : s.PlainIn o slot i v hand) (hnone : s.landing o v = none) (hland : Landed s o o')
    (hdependency : s'.dependency? = s.dependency?) : s'.PlainIn o' slot i v hand := by
  obtain ⟨hnull, hword, hclear⟩ := hland.plain hnone h.word
  exact {
    nowhere := h.nowhere.congr hdependency hland.bottom hland.length
    place := by rw [hland.bottom]; exact h.place
    word := hword
    marked := fun hmark => absurd (hclear.symm.trans hmark) Bool.false_ne_true
    kept := fun hhand hne => absurd (hnull (h.kept hhand hne)) hne
    dropped := fun _ => hclear }

/-- A final pass that stops at slot `k` keeps the mark of word `i`, unless the word is null. -/
theorem PlainIn.halted {k : Nat} (h : s.PlainIn o slot i v hand) (hnone : s.landing o v = none)
    (hhalt : Halted s o k o') (hdependency : s'.dependency? = s.dependency?)
    (hstage : s'.stage ≠ .relocated) : s'.PlainIn o' slot i v hand := by
  obtain ⟨_, hroom⟩ := hhalt.room
  exact {
    nowhere := h.nowhere.congr hdependency hroom.bottom hroom.length
    place := by rw [hroom.bottom]; exact h.place
    word := hhalt.plain hnone h.word
    marked := fun hmark => h.marked (hhalt.marks i hmark)
    kept := fun hhand hne => hhalt.kept i (h.kept hhand hne) (h.word ▸ hne)
    dropped := fun hrelocated => absurd hrelocated hstage }

/-- A call that leaves the word `i` and its mark. -/
theorem PlainIn.congr (h : s.PlainIn o slot i v hand) (hdependency : s'.dependency? = s.dependency?)
    (hbottom : o'.buffer.bottom = o.buffer.bottom) (hlength : o'.buffer.length = o.buffer.length)
    (hcell : o'.cell i = o.cell i) (hstage : s'.stage = .relocated → s.stage = .relocated) :
    s'.PlainIn o' slot i v hand := by
  have hmark : o'.pointers.has i = o.pointers.has i := congrArg Prod.snd hcell
  exact {
    nowhere := h.nowhere.congr hdependency hbottom hlength
    place := by rw [hbottom]; exact h.place
    word := (congrArg Prod.fst hcell).trans h.word
    marked := fun hset => h.marked (hmark.symm.trans hset)
    kept := fun hhand hne => hmark.trans (h.kept hhand hne)
    dropped := fun hrelocated => hmark.trans (h.dropped (hstage hrelocated)) }

end

namespace PlainAt

variable {blocks : List Span} {s : Session} {slot : Addr .buffer} {i : Nat} {v : Word} {hand : Bool}

/-- What the final pass does to the word `v`, whether it succeeds or not. -/
theorem after_relocate (h : PlainAt blocks slot i v hand s) (hstage : s.stage = .wired) :
    ∃ o, (Call.relocate.after s).output? = some o ∧ (Call.relocate.after s).PlainIn o slot i v hand := by
  have hs := h.tended.sound
  have hdependency := (Call.relocate.develops_after hs).frame.2.2
  obtain ⟨o, ho, hplain⟩ := h.holds
  have hnone := hplain.nowhere.landing hs ho (by rw [hstage]; decide)
  have hrun := (triple_relocate_halted hs ho hstage).perform rfl
  change (∃ _, _ ∧ ∃ o', Landed s o o' ∧ Call.relocate.after s = _) ∨
    (∃ _, _ ∧ ∃ k o', Halted s o k o' ∧ _ ∧ Call.relocate.after s = _) at hrun
  obtain ⟨-, -, o', hland, hs'⟩ | ⟨-, -, k, o', hhalt, -, hs'⟩ := hrun
  · exact ⟨o', by rw [hs'], hplain.landed hnone hland hdependency⟩
  · refine ⟨o', by rw [hs'], hplain.halted hnone hhalt hdependency ?_⟩
    rw [hs']
    exact fun hrelocated => nomatch hstage.symm.trans hrelocated

/-- No call `c` that is about another slot, or about none, changes the word `v`. -/
theorem after (h : PlainAt blocks slot i v hand s) (c : Call) (hc : c.isAbout s slot.toNat = false) :
    PlainAt (blocks ++ (c.block? s).toList) slot i v hand (c.after s) := by
  have hs := h.tended.sound
  obtain ⟨b, hb, hhas⟩ := h.within
  refine ⟨c.tended_after h.tended, ⟨b, List.mem_append_left _ hb, hhas⟩, ?_⟩
  by_cases hpass : c = .relocate ∧ s.stage = .wired
  · obtain ⟨rfl, hstage⟩ := hpass
    exact h.after_relocate hstage
  have hother : c = .relocate → s.stage ≠ .wired := fun hc hstage => hpass ⟨hc, hstage⟩
  obtain ⟨o, ho, hplain⟩ := h.holds
  obtain ⟨o', ho', hbottom, hlength, hcells⟩ := Call.cells_after h.tended ho hother
  have hloose : o'.Loose (blocks ++ (c.block? s).toList) i :=
    .inr ⟨b, List.mem_append_left _ hb, by rw [hbottom, ← hplain.place]; exact hhas⟩
  have hcell : o'.cell i = o.cell i := by
    rw [(hcells i hloose).2, Call.remadeAt, ← hplain.place, hc]
    rfl
  refine ⟨o', ho', hplain.congr (c.develops_after hs).frame.2.2 hbottom hlength hcell fun hrelocated => ?_⟩
  by_cases hrelocate : c = .relocate
  · subst hrelocate
    rwa [Call.after_outOfOrder rfl (hother rfl)] at hrelocated
  · have hmilestone : c.milestone? ≠ some .relocate := by
      cases c with
      | relocate => exact absurd rfl hrelocate
      | _ => nofun
    exact (Call.rests_after hs hmilestone hrelocated).stage.symm.trans hrelocated

theorem afterCalls (h : PlainAt blocks slot i v hand s) {calls : List Call}
    (hcalls : s.handles slot.toNat calls = false) :
    PlainAt (blocks ++ s.blocks calls) slot i v hand (s.afterCalls calls) := by
  induction calls generalizing s blocks with
  | nil =>
    rw [Session.blocks, List.append_nil]
    exact h
  | cons c rest ih =>
    obtain ⟨hc, hrest⟩ := Bool.or_eq_false_iff.1 hcalls
    have hlast := ih (h.after c hc) hrest
    rw [List.append_assoc] at hlast
    exact hlast

/-- A word `v` that leads nowhere is stored in a slot of a block. -/
theorem ofWriteWord (htended : Tended blocks s) (hin : ∃ b ∈ blocks, b.Has slot.toNat)
    (hnowhere : ∀ o, s.output? = some o → s.Nowhere o v)
    (hok : ((writeWord slot v).perform s).1 = .ok ()) :
    ∃ i, PlainAt blocks slot i v (s.marked i) ((Call.writeWord slot v).after s) := by
  have hopen := open_of_perform hok
  obtain ⟨o, n, words, pointers, ho, hn, hcells, hs'⟩ :=
    Call.remake_of_ok (c := .writeWord slot v) (s := s) rfl hok
  have hplace := (Buffer.slotOffset_index hn (n / wordBytes)).1 rfl
  have hcell : (o.withContents words pointers).cell (n / wordBytes) = (v, o.pointers.has (n / wordBytes)) := by
    rw [hcells, if_pos rfl]
    rfl
  have hmark : s.marked (n / wordBytes) = (o.withContents words pointers).pointers.has (n / wordBytes) := by
    unfold marked
    rw [ho]
    exact (congrArg Prod.snd hcell).symm
  have hkept := (Call.writeWord slot v).tended_after htended
  rw [Call.block?_of_slot? rfl, Option.toList_none, List.append_nil] at hkept
  rw [hs'] at hkept ⊢
  exact ⟨n / wordBytes, hkept, hin, _, rfl, {
    nowhere := ⟨(hnowhere o ho).own, (hnowhere o ho).foreign⟩
    place := hplace
    word := congrArg Prod.fst hcell
    marked := hmark.trans
    kept := fun h _ => hmark.symm.trans h
    dropped := fun hrelocated => absurd hrelocated hopen }⟩

/-- A final pass that succeeds passes no marked word `v` but null. -/
theorem null_of_pass (h : PlainAt blocks slot i v hand s) (hpass : (relocate.perform s).1 = .ok ())
    (hhand : hand = true) : v = 0 := by
  by_contra hne
  have hstage : s.stage = .wired := stage_of_perform hpass
  obtain ⟨o, ho, hplain⟩ := h.holds
  obtain ⟨_, -, q, hland, -⟩ | ⟨_, herror, -⟩ := (triple_relocate_halted h.tended.sound ho hstage).perform rfl
  · have hnone := hplain.nowhere.landing h.tended.sound ho (by rw [hstage]; decide)
    exact hne ((hland.plain hnone hplain.word).1 (hplain.kept hhand hne))
  · exact nomatch hpass.symm.trans herror

/-- A final pass that stops at the word `v` found it marked and not null. -/
theorem marked_of_halt (h : PlainAt blocks slot i v hand s) {w : Word}
    (hfail : (relocate.perform s).1 = .error (.error (.invariant (.pointerOutOfRange (i * wordBytes) w)))) :
    hand = true ∧ v ≠ 0 := by
  obtain ⟨o, ho, hplain⟩ := h.holds
  have hstage : s.stage = .wired := by
    by_contra hother
    obtain ⟨_, -, hfalse⟩ | ⟨_, herror, -, rfl⟩ :=
      (triple_outOfOrder (Q := fun _ _ => False) hother).perform rfl
    · exact hfalse
    · exact nomatch hfail.symm.trans herror
  obtain ⟨_, hpass, -⟩ | ⟨f, herror, k, q, hhalt, rfl, -⟩ :=
    (triple_relocate_halted h.tended.sound ho hstage).perform rfl
  · exact nomatch hfail.symm.trans hpass
  · have hoffset : i * wordBytes = k * wordBytes := by
      have hsame := hfail.symm.trans herror
      simp only [Except.error.injEq, Failure.error.injEq, BuildError.invariant.injEq,
        Violation.pointerOutOfRange.injEq] at hsame
      exact hsame.1
    obtain rfl : i = k := Nat.eq_of_mul_eq_mul_right (by decide) hoffset
    exact ⟨hplain.marked hhalt.offends.1, hplain.word ▸ hhalt.offends.2.1⟩

/-- The archive `a` has the word `v`, and does not mark it. -/
theorem archived (h : PlainAt blocks slot i v hand s) {a : Archive} (ha : s.archive? = some a) :
    a.buffer.words.read i = v ∧ a.pointers.has i = false := by
  obtain ⟨o, ho, hplain⟩ := h.holds
  obtain ⟨hstage, x, _, hx, rfl⟩ := archive?_eq_some ha
  obtain rfl : o = x := Option.some_inj.1 (ho.symm.trans hx)
  exact ⟨hplain.word, hplain.dropped hstage⟩

end PlainAt

variable {s : Session}

/-- A word `v` that leads nowhere, stored last in a slot of a block, is what the slot holds `after`
    any calls; it is never relocated. The slot is marked only if it was marked when the word was
    stored. If it was, and the word is not null, then the mark stays, no final pass succeeds and
    there is no archive. Otherwise no final pass fails for this slot. The archive, if there is one,
    has the word, and does not mark it. -/
theorem plain_word_exact {host : Host} {reservations : Reservations} {settings : Settings}
    {mapped? : Option (AddrRange .mapped)} {alive : Bool} (hhost : host.Sized)
    (hbegin : begin host reservations settings mapped? alive = .ok s) {before after : List Call}
    {slot : Addr .buffer} {v : Word} (hin : ∃ b ∈ s.blocks before, b.Has slot.toNat)
    (hnowhere : ∀ o, (s.afterCalls before).output? = some o → (s.afterCalls before).Nowhere o v)
    (hok : ((writeWord slot v).perform (s.afterCalls before)).1 = .ok ())
    (hlast : ((Call.writeWord slot v).after (s.afterCalls before)).handles slot.toNat after = false) :
    let t := s.afterCalls (before ++ .writeWord slot v :: after)
    ∃ o i, t.output? = some o ∧ slot.toNat = o.buffer.bottom.toNat + wordBytes * i ∧
      o.buffer.words.read i = v ∧
      (o.pointers.has i = true → (s.afterCalls before).marked i = true) ∧
      ((s.afterCalls before).marked i = true → v ≠ 0 → o.pointers.has i = true ∧
        (relocate.perform t).1 ≠ .ok () ∧ t.archive? = none) ∧
      (∀ w, (relocate.perform t).1 = .error (.error (.invariant (.pointerOutOfRange (i * wordBytes) w))) →
        (s.afterCalls before).marked i = true ∧ v ≠ 0) ∧
      ∀ a, t.archive? = some a → a.buffer.words.read i = v ∧ a.pointers.has i = false := by
  intro t
  obtain ⟨i, hstart⟩ :=
    PlainAt.ofWriteWord ((LooseByHand.ofBegin hhost hbegin).tended.afterCalls before) hin hnowhere hok
  have hplain := hstart.afterCalls hlast
  have ht : ((Call.writeWord slot v).after (s.afterCalls before)).afterCalls after = t :=
    (afterCalls_append s before (.writeWord slot v :: after)).symm
  rw [ht] at hplain
  obtain ⟨o, ho, hheld⟩ := hplain.holds
  refine ⟨o, i, ho, hheld.place, hheld.word, hheld.marked, fun hhand hne => ⟨hheld.kept hhand hne, ?_, ?_⟩,
    fun w hfail => hplain.marked_of_halt hfail, fun a ha => hplain.archived ha⟩
  · exact fun hpass => hne (hplain.null_of_pass hpass hhand)
  · refine Option.eq_none_iff_forall_ne_some.2 fun a ha => ?_
    obtain ⟨hstage, -⟩ := archive?_eq_some ha
    exact Bool.false_ne_true ((hheld.dropped hstage).symm.trans (hheld.kept hhand hne))

/-- A pointer is stored in a block, before a word. -/
def overwrittenCalls : List Call :=
  [.gather [0x100000000000], .reserveBuffer ⟨0, 0, 64⟩, .allocateOther 8, .setPointer ⟨0x20010⟩ ⟨0x20000⟩]

/-- The rest of the way, with a first final pass. -/
def remainingCalls : List Call := [.copyMutable noTables, .copyReadOnly noTables, .wire, .relocate]

/-- A small number that is stored over a pointer. Every final pass stops at it. -/
theorem plain_word_exact_overwritten :
    begin loneHeap.toHost ⟨⟨0x20000⟩, 0x1000, room_fits⟩ ⟨0x8000, 64, 0, false⟩ none false =
      .ok loneFresh ∧
    (∃ b ∈ loneFresh.blocks overwrittenCalls, b.Has (⟨0x20010⟩ : Addr .buffer).toNat) ∧
    (∀ o, (loneFresh.afterCalls overwrittenCalls).output? = some o →
      (loneFresh.afterCalls overwrittenCalls).Nowhere o 5) ∧
    ((writeWord ⟨0x20010⟩ 5).perform (loneFresh.afterCalls overwrittenCalls)).1 = .ok () ∧
    ((Call.writeWord ⟨0x20010⟩ 5).after (loneFresh.afterCalls overwrittenCalls)).handles
      (⟨0x20010⟩ : Addr .buffer).toNat remainingCalls = false ∧
    let t := loneFresh.afterCalls (overwrittenCalls ++ .writeWord ⟨0x20010⟩ 5 :: remainingCalls)
    ∃ o i, t.output? = some o ∧ o.buffer.words.read i = 5 ∧ o.pointers.has i = true ∧
      (relocate.perform t).1 ≠ .ok () ∧ t.archive? = none := by
  have hbegin : begin loneHeap.toHost ⟨⟨0x20000⟩, 0x1000, room_fits⟩ ⟨0x8000, 64, 0, false⟩ none false =
      .ok loneFresh := begin_fresh (by decide +kernel)
  have hin : ∃ b ∈ loneFresh.blocks overwrittenCalls, b.Has (⟨0x20010⟩ : Addr .buffer).toNat := by
    decide +kernel
  have hrange : (loneFresh.afterCalls overwrittenCalls).output?.map
      (fun o => (o.buffer.bottom.toNat, o.buffer.range.contains 5, o.pointers.has 2)) =
      some (0x20000, false, true) := by decide +kernel
  have hnowhere : ∀ o, (loneFresh.afterCalls overwrittenCalls).output? = some o →
      (loneFresh.afterCalls overwrittenCalls).Nowhere o 5 := by
    intro o ho
    rw [ho, Option.map_some, Option.some_inj] at hrange
    have hnone : (loneFresh.afterCalls overwrittenCalls).dependency?.isNone = true := by decide +kernel
    exact ⟨congrArg (·.2.1) hrange, fun d hd => by rw [hd] at hnone; cases hnone⟩
  have hok : ((writeWord ⟨0x20010⟩ 5).perform (loneFresh.afterCalls overwrittenCalls)).1 = .ok () := by
    decide +kernel
  have hlast : ((Call.writeWord ⟨0x20010⟩ 5).after (loneFresh.afterCalls overwrittenCalls)).handles
      (⟨0x20010⟩ : Addr .buffer).toNat remainingCalls = false := by decide +kernel
  refine ⟨hbegin, hin, hnowhere, hok, hlast, ?_⟩
  obtain ⟨o, i, ho, hplace, hword, -, hstuck, -⟩ :=
    plain_word_exact loneHeap_made.sound.sized hbegin hin hnowhere hok hlast
  have hbottom : (loneFresh.afterCalls (overwrittenCalls ++ .writeWord ⟨0x20010⟩ 5 :: remainingCalls)).output?.map
      (·.buffer.bottom.toNat) = some 0x20000 := by decide +kernel
  rw [ho, Option.map_some, Option.some_inj] at hbottom
  obtain rfl : i = 2 := by
    rw [hbottom] at hplace
    change 0x20010 = 0x20000 + 8 * i at hplace
    omega
  exact ⟨o, 2, ho, hword, hstuck (by decide +kernel) (by decide)⟩

end Session

end SnapshotArchive
