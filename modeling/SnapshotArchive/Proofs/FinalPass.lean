import Mathlib.Tactic.Common
import SnapshotArchive.Proofs.LedgerOrder
import SnapshotArchive.Proofs.Mapping
import SnapshotArchive.Proofs.Regions

/-!
The final pass over the marked slots. On a sound session it fails only at a pointer that leads neither
into the used part of the buffer nor into the dependency, and then at the lowest such slot; otherwise
it puts every pointer where its target will be mapped and drops the slots that are null.
-/

namespace SnapshotArchive

namespace Shift

variable {p q : Space}

/-- A shift keeps the distance of `a` from its `origin`. -/
theorem apply_between (origin : Addr p) (image : Addr q) {a : Addr p} (h : origin.toNat ≤ a.toNat)
    (hlt : image.toNat + (a.toNat - origin.toNat) < addressLimit) :
    (between origin image).apply a = .ok ⟨UInt64.ofNat (image.toNat + (a.toNat - origin.toNat))⟩ := by
  have hint : (a.toNat : Int) + (image.toNat - origin.toNat) =
      (image.toNat + (a.toNat - origin.toNat) : Nat) := by omega
  unfold apply between
  dsimp only
  rw [hint, if_pos ⟨by omega, by omega⟩, Int.toNat_natCast]

/-- A range `r` is shifted by `δ` as its bounds are. -/
theorem applyRange_eq_ok {δ : Shift p q} {r : AddrRange p} {bottom top : Addr q}
    (hb : δ.apply r.bottom = .ok bottom) (ht : δ.apply r.top = .ok top) :
    ∃ r', δ.applyRange r = .ok r' ∧ r'.bottom = bottom ∧ r'.top = top := by
  unfold applyRange
  split
  · rename_i e he
    rw [hb] at he
    cases he
  · rename_i b hb'
    rw [hb] at hb'
    cases hb'
    split
    · rename_i e he
      rw [ht] at he
      cases he
    · rename_i t ht'
      rw [ht] at ht'
      cases ht'
      exact ⟨_, rfl, rfl, rfl⟩

end Shift

theorem Addr.ofNat_toNat {p : Space} {n : Nat} (h : n < addressLimit) :
    (⟨UInt64.ofNat n⟩ : Addr p).toNat = n := UInt64.toNat_ofNat_of_lt' h

theorem AddrRange.ofLength?_eq_some {p : Space} (bottom : Addr p) {length : Nat}
    (h : bottom.toNat + length < addressLimit) :
    ∃ r, AddrRange.ofLength? bottom length = some r ∧ r.bottom = bottom ∧
      r.top.toNat = bottom.toNat + length := by
  have htop := Addr.ofNat_toNat (p := p) h
  have hle : bottom.toNat ≤ (⟨UInt64.ofNat (bottom.toNat + length)⟩ : Addr p).toNat := by omega
  refine ⟨⟨bottom, _, hle⟩, ?_, rfl, htop⟩
  unfold AddrRange.ofLength? Addr.add? Addr.ofNat?
  rw [Word.ofNat?_eq_some h, Option.map_some, Option.bind_some]
  unfold AddrRange.ofBounds?
  rw [dif_pos hle]

namespace Session

/-- Where the pointer `w` leads once the archive and its dependency are mapped as requested; none if
    it leads into neither. -/
def landing (s : Session) (o : Output) (w : Word) : Option Nat :=
  if o.buffer.bottom.toNat ≤ w.toNat ∧ w.toNat < o.buffer.bottom.toNat + o.arena.pack.top then
    some (o.requestedBottom.toNat + (w.toNat - o.buffer.bottom.toNat))
  else
    (s.dependency?.filter (·.mapped.contains w)).map fun d =>
      d.requested.bottom.toNat + (w.toNat - d.mapped.bottom.toNat)

variable {s : Session} {o : Output}

/-- A pointer `w` leads to an `n` in the archive or in the dependency, where these are requested. -/
theorem landing_eq_some (h : s.Sound) {w : Word} {n : Nat} (hn : s.landing o w = some n) :
    (o.requestedBottom.toNat ≤ n ∧ n < o.requestedBottom.toNat + o.arena.pack.top) ∨
      ∃ d, s.dependency? = some d ∧ d.mapped.contains w = true ∧ d.requested.bottom.toNat ≤ n ∧
        n < d.requested.top.toNat ∧ n = d.requested.bottom.toNat + (w.toNat - d.mapped.bottom.toNat) := by
  unfold landing at hn
  split at hn
  · cases hn
    omega
  · obtain ⟨d, hd, rfl⟩ := Option.map_eq_some_iff.1 hn
    obtain ⟨hd, hin⟩ := Option.filter_eq_some_iff.1 hd
    have hlength := (h.dependency d hd).2
    have hcontains := AddrRange.contains_iff.1 hin
    have := d.requested.bottom_add_length
    have := d.mapped.bottom_add_length
    exact Or.inr ⟨d, hd, hin, by omega, by omega, rfl⟩

/-- What lies in `used` is shifted to the same distance from the bottom of `requested`, a range that
    is as long, and is not past its end there. -/
theorem inRange_between {p : Space} {used : AddrRange p} (requested : AddrRange .requested) {w : Word}
    (hin : used.contains w = true)
    (hlength : used.top.toNat - used.bottom.toNat = requested.top.toNat - requested.bottom.toNat) :
    ∃ a, (Shift.between used.bottom requested.bottom).apply ⟨w⟩ = .ok a ∧
      inRange requested w a = .ok (UInt64.ofNat (requested.bottom.toNat + (w.toNat - used.bottom.toNat))) := by
  obtain ⟨hlow, hhigh⟩ := AddrRange.contains_iff.1 hin
  have htop := requested.top.toNat_lt
  have hbelow : requested.bottom.toNat + (w.toNat - used.bottom.toNat) < requested.top.toNat := by omega
  have hword := UInt64.toNat_ofNat_of_lt' (Nat.lt_trans hbelow htop)
  refine ⟨_, Shift.apply_between used.bottom requested.bottom (a := ⟨w⟩) hlow (Nat.lt_trans hbelow htop), ?_⟩
  unfold inRange
  refine if_pos (AddrRange.contains_iff.2 ?_)
  change _ ≤ (UInt64.ofNat (requested.bottom.toNat + (w.toNat - used.bottom.toNat))).toNat ∧
    (UInt64.ofNat (requested.bottom.toNat + (w.toNat - used.bottom.toNat))).toNat < _
  rw [hword]
  exact ⟨Nat.le_add_right .., hbelow⟩

/-- The shifted word of a pointer `w` is where it leads, by `landing`. -/
theorem shiftedWord_eq (h : s.Sound) {used : AddrRange .buffer} {requested : AddrRange .requested}
    (hbottom : used.bottom = o.buffer.bottom)
    (htop : used.top.toNat = o.buffer.bottom.toNat + o.arena.pack.top)
    (hrequested : requested.bottom = o.requestedBottom)
    (hrtop : requested.top.toNat = o.requestedBottom.toNat + o.arena.pack.top) (offset : Nat)
    (w : Word) :
    shiftedWord used o.shift requested s.dependency? offset w =
      match s.landing o w with
      | some n => .ok (UInt64.ofNat n)
      | none => .error (.pointerOutOfRange offset w) := by
  unfold shiftedWord landing AddrRange.locate?
  by_cases hin : used.contains w = true
  · have hbounds := AddrRange.contains_iff.1 hin
    obtain ⟨a, happly, hword⟩ := inRange_between requested hin (by
      rw [hbottom, htop, hrequested, hrtop]
      omega)
    rw [hbottom, hrequested] at happly hword
    rw [hbottom, htop] at hbounds
    rw [if_pos hin, if_pos hbounds]
    unfold Output.shift
    dsimp only
    rw [happly]
    exact hword
  · have hbounds := mt AddrRange.contains_iff.2 hin
    rw [hbottom, htop] at hbounds
    rw [if_neg hin, if_neg hbounds]
    cases hd : s.dependency? with
    | none => rfl
    | some d =>
      simp only [Option.bind_some, Option.filter_some]
      by_cases hm : d.mapped.contains w = true
      · have hlength := (h.dependency d hd).2
        have hrlen := d.requested.bottom_add_length
        have hmlen := d.mapped.bottom_add_length
        obtain ⟨a, happly, hword⟩ := inRange_between d.requested hm (by omega)
        rw [if_pos hm, if_pos hm]
        unfold Dependency.shift
        simp only [Option.map_some]
        rw [happly]
        exact hword
      · rw [if_neg hm, if_neg hm]
        rfl

end Session

namespace SessionM

open Session

variable {used : AddrRange .buffer} {requested : AddrRange .requested}

/-- The word that the pass puts at index `i` in place of `w`. -/
def shifted (used : AddrRange .buffer) (requested : AddrRange .requested) (s : Session) (o : Output)
    (i : Nat) (w : Word) : Except Violation Word :=
  shiftedWord used o.shift requested s.dependency? (i * wordBytes) w

theorem wp_shiftSlot {Q : Bool → Run → Prop} {E : Failure → Run → Prop} {r : Run} {o : Output}
    (ho : r.session.output? = some o) (i : Nat) :
    (shiftSlot used requested i).wp Q E r =
      if o.buffer.words.read i = 0 then Q false r
      else
        match shifted used requested r.session o i (o.buffer.words.read i) with
        | .ok w => Q true
            { session := { r.session with output? := some (o.write (i * wordBytes) w) }
              events := r.events.push (.shifted (i * wordBytes) (o.buffer.words.read i) w) }
        | .error v => E v r := by
  have hread : o.buffer.read (i * wordBytes) = o.buffer.words.read i := by
    unfold Buffer.read
    rw [Nat.mul_div_cancel _ (by decide)]
  unfold shiftSlot
  simp only [wp_bind, wp_session, wp_output, ho, hread]
  split
  · rfl
  · rw [wp_bind, wp_ofViolation]
    unfold shifted
    cases shiftedWord used o.shift requested r.session.dependency? (i * wordBytes)
      (o.buffer.words.read i) with
    | ok w => simp only [wp_bind, wp_tell, wp_changeOutput, wp_pure, ho, Option.map_some]
    | error v => rfl

/-- How the loop over the slots `is` ends: the first slot that cannot be shifted ends it; otherwise
    all pointers are shifted and the null slots are dropped. -/
def PassOutcome (shift : Nat → Word → Except Violation Word) (is : List Nat) (b b' : Words)
    (l l' : Ledger) : Except Failure Unit → Prop
  | .ok () =>
    (∀ i ∈ is, b.read i ≠ 0 → shift i (b.read i) = .ok (b'.read i)) ∧
      (∀ j, (j ∉ is ∨ b.read j = 0) → b'.read j = b.read j) ∧
      l'.len = l.len ∧ ∀ j, l'.has j = (l.has j && !(decide (j ∈ is) && b.read j == 0))
  | .error f =>
    ∃ i ∈ is, ∃ v, b.read i ≠ 0 ∧ shift i (b.read i) = .error v ∧ f = .error (.invariant v) ∧
      (∀ j ∈ is, j < i → b.read j ≠ 0 → shift j (b.read j) = .ok (b'.read j)) ∧
      (∀ j, (j ∉ is ∨ b.read j = 0 ∨ i ≤ j) → b'.read j = b.read j) ∧
      (∀ j, l'.has j = true → l.has j = true) ∧
      ∀ j, l.has j = true → (j ∉ is ∨ b.read j ≠ 0) → l'.has j = true

namespace PassOutcome

variable {shift : Nat → Word → Except Violation Word} {i : Nat} {rest : List Nat} {b b' : Words}
  {l l' : Ledger} {x : Except Failure Unit}

/-- A null slot `i` is dropped before the rest is passed over. -/
theorem drop (h : PassOutcome shift rest b b' (l.erase i) l' x) (hzero : b.read i = 0) :
    PassOutcome shift (i :: rest) b b' l l' x := by
  cases x with
  | ok =>
    obtain ⟨hshift, hkeep, hlen, hhas⟩ := h
    refine ⟨fun k hk hne => ?_, fun j hj => hkeep j ?_, hlen.trans (Ledger.len_erase ..), fun j => ?_⟩
    · rcases List.mem_cons.1 hk with rfl | hk
      · exact absurd hzero hne
      · exact hshift k hk hne
    · exact hj.imp_left fun hj hmem => hj (List.mem_cons_of_mem _ hmem)
    · rw [hhas, Ledger.has_erase]
      by_cases hji : j = i
      · subst hji
        simp [hzero]
      · simp [hji]
  | error f =>
    obtain ⟨k, hk, v, hne, hv, hf, hbefore, hkeep, hmarks, hkept⟩ := h
    refine ⟨k, List.mem_cons_of_mem _ hk, v, hne, hv, hf, fun j hj hjk hj0 => ?_, fun j hj => ?_,
      fun j hj => ?_, fun j hj hpointer => hkept j ?_ ?_⟩
    · rcases List.mem_cons.1 hj with rfl | hj
      · exact absurd hzero hj0
      · exact hbefore j hj hjk hj0
    · exact hkeep j (hj.imp_left fun hj hmem => hj (List.mem_cons_of_mem _ hmem))
    · have herased := hmarks j hj
      rw [Ledger.has_erase, Bool.and_eq_true] at herased
      exact herased.1
    · have hji : j ≠ i := by
        rintro rfl
        exact hpointer.elim (fun hj => hj (List.mem_cons_self ..)) fun hne => hne hzero
      rw [Ledger.has_erase, hj]
      simpa using hji
    · exact hpointer.imp_left fun hj hmem => hj (List.mem_cons_of_mem _ hmem)

/-- The pointer at `i` is shifted to `w` before the rest is passed over. -/
theorem cons {w : Word} (h : PassOutcome shift rest (b.write i w) b' l l' x) (hne : b.read i ≠ 0)
    (hw : shift i (b.read i) = .ok w) (hlt : ∀ k ∈ rest, i < k) :
    PassOutcome shift (i :: rest) b b' l l' x := by
  -- the slots ascend, so the first of them is not among the rest
  have hself : i ∉ rest := fun hmem => absurd (hlt i hmem) (Nat.lt_irrefl i)
  have hother : ∀ k, k ≠ i → (b.write i w).read k = b.read k := fun k hk =>
    Words.read_write_ne _ _ (Ne.symm hk)
  have hne' : ∀ k ∈ rest, k ≠ i := fun k hk => Nat.ne_of_gt (hlt k hk)
  cases x with
  | ok =>
    obtain ⟨hshift, hkeep, hlen, hhas⟩ := h
    refine ⟨fun k hk hk0 => ?_, fun j hj => ?_, hlen, fun j => ?_⟩
    · rcases List.mem_cons.1 hk with rfl | hk
      · rw [hkeep k (Or.inl hself), Words.read_write_self]
        exact hw
      · have := hshift k hk
        rw [hother k (hne' k hk)] at this
        exact this hk0
    · have hji : j ≠ i := by
        rintro rfl
        exact hj.elim (fun hj => hj (List.mem_cons_self ..)) hne
      rw [hkeep j ?_, hother j hji]
      rw [hother j hji]
      exact hj.imp_left fun hj hmem => hj (List.mem_cons_of_mem _ hmem)
    · rw [hhas]
      by_cases hji : j = i
      · subst hji
        simp [hself, hne]
      · simp [hji, hother j hji]
  | error f =>
    obtain ⟨k, hk, v, hk0, hv, hf, hbefore, hkeep, hmarks, hkept⟩ := h
    rw [hother k (hne' k hk)] at hk0 hv
    refine ⟨k, List.mem_cons_of_mem _ hk, v, hk0, hv, hf, fun j hj hjk hj0 => ?_, fun j hj => ?_, hmarks,
      fun j hj hpointer => hkept j hj ?_⟩
    · rcases List.mem_cons.1 hj with rfl | hj
      · rw [hkeep j (Or.inl hself), Words.read_write_self]
        exact hw
      · have := hbefore j hj hjk
        rw [hother j (hne' j hj)] at this
        exact this hj0
    · have hji : j ≠ i := by
        rintro rfl
        rcases hj with hj | hj | hj
        · exact hj (List.mem_cons_self ..)
        · exact hne hj
        · exact absurd (hlt k hk) (Nat.not_lt.2 hj)
      rw [hkeep j ?_, hother j hji]
      rw [hother j hji]
      exact hj.imp_left fun hj hmem => hj (List.mem_cons_of_mem _ hmem)
    · by_cases hji : j = i
      · exact .inl (hji ▸ hself)
      · rw [hother j hji]
        exact hpointer.imp_left fun hj hmem => hj (List.mem_cons_of_mem _ hmem)

end PassOutcome

variable (used requested) in
/-- The loop over slots `is` in ascending order. -/
theorem run_retainAmong : ∀ (is : List Nat) (l : Ledger) (r : Run) (o : Output),
    is.Pairwise (· < ·) → r.session.output? = some o →
    ∃ b' : Words, ∃ p : (Except Failure Unit × Ledger) × Run,
      (Ledger.retainAmong (fun i => (shiftSlot used requested i).run) is l).run r = p ∧
      p.2.session = { r.session with output? := some { o with buffer := { o.buffer with words := b' } } } ∧
      PassOutcome (shifted used requested r.session o) is o.buffer.words b' l p.1.2 p.1.1
  | [], l, r, o, _, ho => by
    refine ⟨o.buffer.words, _, rfl, ?_, ?_⟩
    · change r.session = { r.session with output? := some o }
      rw [← ho]
    · exact ⟨nofun, fun _ _ => rfl, rfl, fun j => by
        change l.has j = _
        simp⟩
  | i :: rest, l, r, o, hpairs, ho => by
    obtain ⟨hlt, hpairs⟩ := List.pairwise_cons.1 hpairs
    rw [Ledger.run_retainAmong_cons]
    by_cases hzero : o.buffer.words.read i = 0
    · have hon : (shiftSlot used requested i).run.run r = (.ok false, r) :=
        on_eq_ok (by rw [wp_shiftSlot ho, if_pos hzero]; exact ⟨rfl, rfl⟩)
      rw [hon]
      obtain ⟨b', p, hp, hs, hout⟩ := run_retainAmong rest (l.erase i) r o hpairs ho
      exact ⟨b', p, hp, hs, hout.drop hzero⟩
    · cases hw : shifted used requested r.session o i (o.buffer.words.read i) with
      -- the pass ends here, with the slots before this one shifted
      | error v =>
        have hon : (shiftSlot used requested i).run.run r = (.error (.error (.invariant v)), r) :=
          on_eq_error (by rw [wp_shiftSlot ho, if_neg hzero, hw]; exact ⟨rfl, rfl⟩)
        rw [hon]
        refine ⟨o.buffer.words, _, rfl, ?_, ?_⟩
        · change r.session = { r.session with output? := some o }
          rw [← ho]
        · refine ⟨i, List.mem_cons_self .., v, hzero, hw, rfl, fun j hj hji => ?_, fun _ _ => rfl,
            fun _ => id, fun _ hj _ => hj⟩
          rcases List.mem_cons.1 hj with rfl | hj
          · exact absurd hji (Nat.lt_irrefl j)
          · exact absurd (hlt j hj) (Nat.not_lt.2 (Nat.le_of_lt hji))
      | ok w =>
        have hon : (shiftSlot used requested i).run.run r = (.ok true, _) :=
          on_eq_ok (by rw [wp_shiftSlot ho, if_neg hzero, hw]; exact ⟨rfl, rfl⟩)
        rw [hon]
        obtain ⟨b', p, hp, hs, hout⟩ := run_retainAmong rest l
          { session := { r.session with output? := some (o.write (i * wordBytes) w) }
            events := r.events.push (.shifted (i * wordBytes) (o.buffer.words.read i) w) }
          (o.write (i * wordBytes) w) hpairs rfl
        have hwords : (o.write (i * wordBytes) w).buffer.words = o.buffer.words.write i w := by
          change o.buffer.words.write (i * wordBytes / wordBytes) w = _
          rw [Nat.mul_div_cancel _ (by decide)]
        rw [hwords] at hout
        exact ⟨b', p, hp, hs, hout.cons hzero hw hlt⟩

/-- The output `o` once its read-only region is packed and its top is settled. -/
def Output.packed (o : Output) (top? : Option (Addr .requested)) : Output :=
  { o with arena := o.arena.pack, requestedTop? := top? }

/-- The used part of the buffer of `o`, and where it will be mapped. -/
structure Ranges (o : Output) (used : AddrRange .buffer) (requested : AddrRange .requested) : Prop where
  bottom : used.bottom = o.buffer.bottom
  top : used.top.toNat = o.buffer.bottom.toNat + o.arena.pack.top
  requested_bottom : requested.bottom = o.requestedBottom
  requested_top : requested.top.toNat = o.requestedBottom.toNat + o.arena.pack.top

theorem pack_top_le {s : Session} {o : Output} (hf : s.Filled o) (hrank : 4 ≤ s.stage.rank) :
    o.arena.pack.top ≤ o.buffer.length := by
  obtain ⟨hsound, -, hlength, -⟩ := hf.arena.pack (hf.switched hrank)
  rw [← hf.length, ← hlength]
  exact hsound.top_le_length

/-- The range of the archive can be settled. -/
theorem triple_settleRange {s : Session} {o : Output} (h : s.Sound) (ho : s.output? = some o)
    (hrank : 4 ≤ s.stage.rank) :
    Triple (· = s) settleRange
      (fun p s' => Ranges o p.1 p.2 ∧
        s' = { s with output? := some (Output.packed o (some p.2.top)) })
      (fun _ _ => False) := by
  rintro r rfl
  have hf := h.filled o ho
  have htop := pack_top_le hf hrank
  have hfits := o.buffer.fits
  have hroom := hf.room
  obtain ⟨used, hused, hbottom, hutop⟩ := AddrRange.ofLength?_eq_some o.buffer.bottom
    (show o.buffer.bottom.toNat + o.arena.pack.top < addressLimit by omega)
  have hb := Shift.apply_between o.buffer.bottom o.requestedBottom
    (a := used.bottom) (by rw [hbottom]) (by rw [hbottom]; omega)
  have ht := Shift.apply_between o.buffer.bottom o.requestedBottom
    (a := used.top) (by omega) (by omega)
  obtain ⟨requested, hreq, hrb, hrt⟩ := Shift.applyRange_eq_ok hb ht
  have hranges : Ranges o used requested := by
    refine ⟨hbottom, hutop, ?_, ?_⟩
    · rw [hrb, hbottom, Nat.sub_self, Nat.add_zero]
      exact Addr.toNat_inj.1 (Addr.ofNat_toNat (Addr.toNat_lt _))
    · rw [hrt, Addr.ofNat_toNat (by omega), hutop, Nat.add_sub_cancel_left]
  unfold settleRange
  simp only [wp_bind, wp_output, ho, wp_setOutput]
  rw [hused]
  dsimp only
  rw [show Output.shift { o with arena := o.arena.pack } = o.shift from rfl]
  unfold Output.shift
  rw [hreq]
  exact ⟨hranges, rfl⟩

/-- How the marked slots and the ledger of `o` come out of the pass, in `o'`. -/
structure Landed (s : Session) (o o' : Output) : Prop where
  arena : o'.arena = o.arena.pack
  bottom : o'.buffer.bottom = o.buffer.bottom
  length : o'.buffer.length = o.buffer.length
  requested : o'.requestedBottom = o.requestedBottom
  top : ∃ top, o'.requestedTop? = some top ∧ top.toNat = o.requestedBottom.toNat + o.arena.pack.top
  marked : ∀ i, o.pointers.has i = true → o.buffer.words.read i ≠ 0 →
    ∃ n, s.landing o (o.buffer.words.read i) = some n ∧ o'.buffer.words.read i = UInt64.ofNat n
  others : ∀ i, (o.pointers.has i = false ∨ o.buffer.words.read i = 0) →
    o'.buffer.words.read i = o.buffer.words.read i
  marks : ∀ i, o'.pointers.has i = (o.pointers.has i && o.buffer.words.read i != 0)
  size : o'.pointers.len = match o'.pointers.lastOne? with | none => 0 | some i => i + 1

/-- Slot `i` is the lowest one whose pointer leads nowhere. -/
def Offends (s : Session) (o : Output) (i : Nat) : Prop :=
  o.pointers.has i = true ∧ o.buffer.words.read i ≠ 0 ∧ s.landing o (o.buffer.words.read i) = none ∧
    ∀ j < i, o.pointers.has j = true → o.buffer.words.read j ≠ 0 →
      (s.landing o (o.buffer.words.read j)).isSome = true

/-- What a failed pass leaves in `s'`: contents and marks that may have changed, but no archive. -/
def Stranded (s : Session) (o : Output) (s' : Session) : Prop :=
  ∃ o' top?, (Output.packed o top?).SameRoom o' ∧ s' = { s with output? := some o' }

/-- A pass over `o` that stops at slot `i` has shifted the pointers below, and nothing else. -/
structure Halted (s : Session) (o : Output) (i : Nat) (o' : Output) : Prop where
  room : ∃ top?, (Output.packed o top?).SameRoom o'
  offends : Offends s o i
  below : ∀ j < i, o.pointers.has j = true → o.buffer.words.read j ≠ 0 →
    ∃ n, s.landing o (o.buffer.words.read j) = some n ∧ o'.buffer.words.read j = UInt64.ofNat n
  others : ∀ j, (o.pointers.has j = false ∨ o.buffer.words.read j = 0 ∨ i ≤ j) →
    o'.buffer.words.read j = o.buffer.words.read j
  marks : ∀ j, o'.pointers.has j = true → o.pointers.has j = true
  kept : ∀ j, o.pointers.has j = true → o.buffer.words.read j ≠ 0 → o'.pointers.has j = true

theorem triple_shiftNoted {s : Session} {o : Output} (ho : s.output? = some o) :
    Triple (· = s) (shiftNoted used requested)
      (fun _ s' => ∃ b' l', PassOutcome (shifted used requested s o) o.pointers.ones o.buffer.words b'
        o.pointers l' (.ok ()) ∧ s' = { s with output? := some { o with
          buffer := { o.buffer with words := b' }, pointers := l' } })
      (fun f s' => ∃ b' l', PassOutcome (shifted used requested s o) o.pointers.ones o.buffer.words b'
        o.pointers l' (.error f) ∧ s' = { s with output? := some { o with
          buffer := { o.buffer with words := b' }, pointers := l' } }) := by
  rintro r rfl
  unfold shiftNoted
  simp only [wp_bind, wp_output, ho]
  obtain ⟨b', p, hp, hs, hout⟩ := run_retainAmong used requested o.pointers.ones o.pointers r o o.pointers.pairwise_ones ho
  rw [wp_lift, Ledger.retain, hp, hs]
  dsimp only
  rw [wp_setOutput, wp_ofFailure, hs]
  obtain ⟨⟨x, l'⟩, r'⟩ := p
  cases x with
  | ok => exact ⟨b', l', hout, rfl⟩
  | error f => exact ⟨b', l', hout, rfl⟩

theorem filled_packed {s : Session} {o : Output} (hf : s.Filled o) (hrank : 4 ≤ s.stage.rank)
    (top? : Option (Addr .requested)) : s.Filled (Output.packed o top?) := by
  obtain ⟨hsound, hcurrent, hlength, -⟩ := hf.arena.pack (hf.switched hrank)
  exact { hf with
    arena := hsound
    length := hlength.trans hf.length
    reserved := fun hr => absurd hrank (by rw [hr]; decide)
    switched := fun _ => hcurrent
    layout := hf.layout.pack hf.arena (hf.switched hrank) }

theorem Landed.sameRoom {s : Session} {o o' : Output} (hl : Landed s o o') :
    (Output.packed o none).SameRoom o' := ⟨hl.arena, hl.bottom, hl.length, hl.requested⟩

/-- A finished session is sound. -/
theorem Landed.sound {s : Session} {o o' : Output} (hl : Landed s o o') (h : s.Sound)
    (ho : s.output? = some o) (hrank : 4 ≤ s.stage.rank) :
    Session.Sound { s with output? := some o', stage := .relocated } := by
  have hf := (filled_packed (h.filled o ho) hrank none).sameRoom hl.sameRoom
  refine ⟨h.settings, h.dependency, h.books, nofun, fun o₁ ho₁ => ?_⟩
  cases ho₁
  exact { hf with
    stage := show 2 ≤ 6 by decide
    reserved := nofun
    switched := fun _ => hf.switched hrank
    copied := fun kind _ w hw => hf.copied kind (Nat.le_trans (by cases kind <;> decide) hrank) w hw }

theorem Stranded.sound {s s' : Session} {o : Output} (hs : Stranded s o s') (h : s.Sound)
    (ho : s.output? = some o) (hrank : 4 ≤ s.stage.rank) : s'.Sound := by
  obtain ⟨o', top?, hroom, rfl⟩ := hs
  exact h.withOutput ((filled_packed (h.filled o ho) hrank top?).sameRoom hroom)

theorem compact_last_len (l : Ledger) :
    (l.compact l.lastOne?).len =
      match (l.compact l.lastOne?).lastOne? with | none => 0 | some i => i + 1 := by
  have hlen : (l.compact l.lastOne?).len = match l.lastOne? with | none => 0 | some i => i + 1 := rfl
  rw [hlen]
  cases hl : l.lastOne? with
  | none =>
    cases hc : (l.compact none).lastOne? with
    | none => rfl
    | some i =>
      have hi := (Ledger.lastOne?_eq_some hc).1
      rw [← hl, Ledger.has_compact_last, Ledger.lastOne?_eq_none hl] at hi
      cases hi
  | some m =>
    obtain ⟨hm, hmax⟩ := Ledger.lastOne?_eq_some hl
    cases hc : (l.compact (some m)).lastOne? with
    | none =>
      have hi := Ledger.lastOne?_eq_none hc m
      rw [← hl, Ledger.has_compact_last, hm] at hi
      cases hi
    | some i =>
      obtain ⟨hi, himax⟩ := Ledger.lastOne?_eq_some hc
      have hmi := himax m (by rw [← hl, Ledger.has_compact_last]; exact hm)
      rw [← hl, Ledger.has_compact_last] at hi
      rw [Nat.le_antisymm (hmax i hi) hmi]

/-- By `shift` each pointer is replaced by where it leads, and one that leads nowhere is an
    error. -/
def Resolves (s : Session) (o : Output) (shift : Nat → Word → Except Violation Word) : Prop :=
  ∀ i w, shift i w =
    match s.landing o w with
    | some n => .ok (UInt64.ofNat n)
    | none => .error (.pointerOutOfRange (i * wordBytes) w)

namespace Resolves

variable {s : Session} {o : Output} {shift : Nat → Word → Except Violation Word} {b' : Words} {l' : Ledger}

theorem eq_ok (h : Resolves s o shift) {i : Nat} {w w' : Word} (hw : shift i w = .ok w') :
    ∃ n, s.landing o w = some n ∧ w' = UInt64.ofNat n := by
  rw [h] at hw
  rcases hn : s.landing o w with - | n
  · rw [hn] at hw
    cases hw
  · rw [hn] at hw
    exact ⟨n, rfl, (Except.ok.inj hw).symm⟩

theorem eq_error (h : Resolves s o shift) {i : Nat} {w : Word} {v : Violation} (hv : shift i w = .error v) :
    s.landing o w = none ∧ v = .pointerOutOfRange (i * wordBytes) w := by
  rw [h] at hv
  rcases hn : s.landing o w with - | n
  · rw [hn] at hv
    exact ⟨rfl, (Except.error.inj hv).symm⟩
  · rw [hn] at hv
    cases hv

theorem not_mem_ones {i : Nat} (h : o.pointers.has i = false) : i ∉ o.pointers.ones := by
  rw [Ledger.mem_ones, h]
  nofun

/-- A pass by `shift` that comes to its end leaves the archive. -/
theorem landed (h : Resolves s o shift)
    (hpass : PassOutcome shift o.pointers.ones o.buffer.words b' o.pointers l' (.ok ()))
    {top : Addr .requested} (htop : top.toNat = o.requestedBottom.toNat + o.arena.pack.top) :
    Landed s o { Output.packed o (some top) with
      buffer := { o.buffer with words := b' }, pointers := l'.compact l'.lastOne? } := by
  obtain ⟨hmarked, hothers, -, hmarks⟩ := hpass
  refine ⟨rfl, rfl, rfl, rfl, ⟨top, rfl, htop⟩, fun i hi hne => ?_, fun i hi => ?_, fun i => ?_,
    compact_last_len l'⟩
  · obtain ⟨n, hn, hword⟩ := h.eq_ok (hmarked i (Ledger.mem_ones.2 hi) hne)
    exact ⟨n, hn, hword⟩
  · exact hothers i (hi.imp_left not_mem_ones)
  · change (l'.compact l'.lastOne?).has i = _
    rw [Ledger.has_compact_last, hmarks]
    cases hi : o.pointers.has i with
    | false => simp
    | true => simp [Ledger.mem_ones.2 hi, bne]

/-- A pass by `shift` that does not come to its end stops at the lowest pointer that leads
    nowhere. -/
theorem halted (h : Resolves s o shift) {f : Failure}
    (hpass : PassOutcome shift o.pointers.ones o.buffer.words b' o.pointers l' (.error f))
    (top? : Option (Addr .requested)) :
    ∃ i, f = .error (.invariant (.pointerOutOfRange (i * wordBytes) (o.buffer.words.read i))) ∧
      Halted s o i { Output.packed o top? with
        buffer := { o.buffer with words := b' }, pointers := l' } := by
  obtain ⟨i, hi, v, hne, hv, rfl, hbefore, hothers, hmarks, hkept⟩ := hpass
  obtain ⟨hlost, rfl⟩ := h.eq_error hv
  have hpassed : ∀ j < i, o.pointers.has j = true → o.buffer.words.read j ≠ 0 →
      ∃ n, s.landing o (o.buffer.words.read j) = some n ∧ b'.read j = UInt64.ofNat n :=
    fun j hji hj hj0 => h.eq_ok (hbefore j (Ledger.mem_ones.2 hj) hji hj0)
  refine ⟨i, rfl, ⟨top?, rfl, rfl, rfl, rfl⟩, ⟨Ledger.mem_ones.1 hi, hne, hlost, fun j hji hj hj0 => ?_⟩,
    hpassed, fun j hj => hothers j (hj.imp_left not_mem_ones), hmarks,
    fun j hj hne => hkept j hj (.inr hne)⟩
  obtain ⟨n, hn, -⟩ := hpassed j hji hj hj0
  exact Option.isSome_iff_exists.2 ⟨n, hn⟩

end Resolves

/-- The pass finishes a sound session, or stops at the lowest pointer that leads nowhere. -/
theorem triple_relocate_halted {s : Session} {o : Output} (h : s.Sound) (ho : s.output? = some o)
    (hstage : s.stage = .wired) :
    Triple (· = s) relocate
      (fun _ s' => ∃ o', Landed s o o' ∧ s' = { s with output? := some o', stage := .relocated })
      (fun f s' => ∃ i o', Halted s o i o' ∧
        f = .error (.invariant (.pointerOutOfRange (i * wordBytes) (o.buffer.words.read i))) ∧
        s' = { s with output? := some o' }) := by
  rintro r rfl
  have hf := h.filled o ho
  have hrank : 4 ≤ r.session.stage.rank := by rw [hstage]; decide
  unfold relocate
  rw [wp_bind, wp_requireStage, if_pos hstage, wp_bind]
  refine (triple_settleRange h ho hrank).use rfl ?_ fun _ _ h => h.elim
  rintro ⟨used, requested⟩ r₁ ⟨hranges, hr₁⟩
  have hshift : Resolves r.session o (shifted used requested r₁.session (Output.packed o (some requested.top))) := by
    intro i w
    rw [hr₁]
    exact shiftedWord_eq h hranges.bottom hranges.top hranges.requested_bottom hranges.requested_top ..
  rw [wp_bind, wp_tell, wp_bind]
  refine (triple_shiftNoted (s := r₁.session) (o := Output.packed o (some requested.top))
    (by rw [hr₁])).use rfl ?_ ?_
  · rintro _ r₂ ⟨b', l', hpass, hr₂⟩
    have hland := hshift.landed hpass hranges.requested_top
    have hsound := hland.sound h ho hrank
    unfold compactPointers
    simp only [wp_bind, wp_output, wp_setOutput, wp_tell, wp_enter, wp_session, hr₂, hr₁]
    split
    · exact (triple_logMap hsound rfl).use rfl (fun _ r' h' => ⟨_, hland, h'⟩) fun _ _ h => h.elim
    · exact ⟨_, hland, rfl⟩
  · rintro f r₂ ⟨b', l', hpass, hr₂⟩
    obtain ⟨i, hf', hhalted⟩ := hshift.halted hpass (some requested.top)
    exact ⟨i, _, hhalted, hf', by rw [hr₂, hr₁]; rfl⟩

theorem triple_relocate {s : Session} {o : Output} (h : s.Sound) (ho : s.output? = some o)
    (hstage : s.stage = .wired) :
    Triple (· = s) relocate
      (fun _ s' => ∃ o', Landed s o o' ∧ s' = { s with output? := some o', stage := .relocated })
      (fun f s' => ∃ i, Offends s o i ∧
        f = .error (.invariant (.pointerOutOfRange (i * wordBytes) (o.buffer.words.read i))) ∧
        Stranded s o s') := by
  refine (triple_relocate_halted h ho hstage).conseq (fun _ h => h) (fun _ _ h => h) ?_
  rintro f s' ⟨i, o', hhalt, rfl, rfl⟩
  obtain ⟨top?, hroom⟩ := hhalt.room
  exact ⟨i, hhalt.offends, rfl, o', top?, hroom, rfl⟩

theorem keeps_relocate : Keeps Sound relocate := by
  refine Keeps.ofStage (t := .wired) fun r hr => ?_
  obtain ⟨h, hstage⟩ := hr
  have hrank : 4 ≤ r.session.stage.rank := by rw [hstage]; decide
  obtain ⟨o, ho⟩ := Sound.output_of_rank h (Nat.le_trans (by decide) hrank)
  refine (triple_relocate h ho hstage).use rfl ?_ ?_
  · rintro _ r' ⟨o', hland, hr'⟩
    rw [hr']
    exact hland.sound h ho hrank
  · rintro _ r' ⟨_, -, -, hs⟩
    exact hs.sound h ho hrank

end SessionM

end SnapshotArchive
