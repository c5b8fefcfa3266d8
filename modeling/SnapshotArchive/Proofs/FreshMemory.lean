import Mathlib.Tactic.Common
import SnapshotArchive.Proofs.LooseWords

/-!
What is in a block when it is allocated. The buffer is reserved blank, and no step puts anything past the
top. But slots past the top are accepted when words are stored by hand, and what is stored there stays. So a
new block holds what was put there by hand before it was allocated, and is blank if nothing was.
-/

namespace SnapshotArchive

open SessionM

/-- Byte `i` of a word that is zero is zero. -/
theorem Words.byteAt_eq_zero {m : Words} {i : Nat} (h : m.read (i / wordBytes) = 0) : m.byteAt i = 0 := by
  unfold byteAt
  rw [h]
  simp

namespace Call

variable {s : Session}

/-- No call `c` takes a session back to a stage. -/
theorem rank_le_after (hs : s.Sound) (c : Call) : s.stage.rank ≤ (c.after s).stage.rank := by
  obtain hrests | ⟨m, -, hpasses⟩ := c.after_cases hs
  · exact Nat.le_of_eq (congrArg Stage.rank hrests.stage.symm)
  · have hafter := hpasses.after
    have hbefore := hpasses.before
    omega

end Call

namespace Session

variable {s : Session}

theorem rank_le_afterCalls (hs : s.Sound) (calls : List Call) :
    s.stage.rank ≤ (s.afterCalls calls).stage.rank := by
  induction calls generalizing s with
  | nil => exact Nat.le_refl _
  | cons c rest ih => exact (c.rank_le_after hs).trans (ih (c.sound_after hs))

/-- Until the wiring is done, a final pass is refused. -/
theorem unpassed_of_rank (hs : s.Sound) {calls : List Call}
    (hrank : (s.afterCalls calls).stage.rank < Stage.wired.rank) : s.Unpassed calls := by
  induction calls generalizing s with
  | nil => trivial
  | cons c rest ih =>
    refine ⟨fun _ hstage => ?_, ih (c.sound_after hs) hrank⟩
    have hle := rank_le_afterCalls hs (c :: rest)
    rw [hstage] at hle
    exact absurd hrank (Nat.not_lt.2 hle)

/-- A block of `n` bytes that is allocated lies at the next free word `i₀` of the buffer. From there
    on, each word and its mark are what `calls` made of them by hand before, starting from a word
    that is zero and not marked. So where no call was about a slot of the block, the bytes of the
    block are zero and none of its words is marked. -/
theorem allocated_as_handmade {host : Host} {reservations : Reservations} {settings : Settings}
    {mapped? : Option (AddrRange .mapped)} {alive : Bool} (hhost : host.Sized)
    (hbegin : begin host reservations settings mapped? alive = .ok s) (calls : List Call) {n : Nat}
    {a : Addr .buffer} (hok : ((allocateOther n).perform (s.afterCalls calls)).1 = .ok a) :
    ∃ o i₀, ((allocateOther n).perform (s.afterCalls calls)).2.session.output? = some o ∧
      a.toNat = o.buffer.bottom.toNat + wordBytes * i₀ ∧ wordBytes * i₀ + n ≤ o.buffer.length ∧
      (∀ i, i₀ ≤ i → o.cell i = s.handmade (o.buffer.bottom.toNat + wordBytes * i) (0, false) calls) ∧
      ((∀ m, a.toNat ≤ m → m < a.toNat + n → s.handles m calls = false) →
        (∀ k, k < n → o.buffer.words.byteAt (wordBytes * i₀ + k) = 0) ∧
        ∀ i, i₀ ≤ i → wordBytes * i < wordBytes * i₀ + n → o.pointers.has i = false) := by
  have hstart := LooseByHand.ofBegin hhost hbegin
  have hs : (s.afterCalls calls).Sound :=
    (Reachable.begin hbegin).afterCalls calls |>.sound
  obtain ⟨_, hok', hopen, x, t, stats, hx, rfl, -, hlow, hhigh, -, hs'⟩ | ⟨_, herror, -⟩ :=
    (triple_allocateOther hs.arenas n).perform rfl
  swap
  · exact nomatch hok.symm.trans herror
  obtain rfl := Except.ok.inj (hok.symm.trans hok')
  have hloose := hstart.afterCalls (unpassed_of_rank hstart.tended.sound (of_decide_eq_true hopen))
  have hf := hs.filled x hx
  have htop : x.arena.top ≤ x.buffer.length := hf.arena.top_le_length.trans (Nat.le_of_eq hf.length)
  have hplace : (x.buffer.addrAt x.arena.top).toNat = x.buffer.bottom.toNat + x.arena.top :=
    Buffer.toNat_addrAt htop
  have hwords : wordBytes * (x.arena.top / wordBytes) = x.arena.top :=
    Nat.mul_div_cancel' hf.arena.dvd_top
  have hcells : ∀ i, x.arena.top / wordBytes ≤ i →
      x.cell i = s.handmade (x.buffer.bottom.toNat + wordBytes * i) (0, false) calls := by
    intro i hi
    refine hloose.cells x hx i (.inl ?_)
    rw [← hwords]
    exact Nat.mul_le_mul_left _ hi
  have hroom : x.arena.top + n ≤ x.buffer.length :=
    hlow.trans (hhigh.trans (hf.arena.limit_le_length.trans (Nat.le_of_eq hf.length)))
  rw [hs']
  refine ⟨_, x.arena.top / wordBytes, rfl, by rw [hwords]; exact hplace, by rw [hwords]; exact hroom, hcells,
    fun hfree => ?_⟩
  have hblank : ∀ i, x.arena.top / wordBytes ≤ i → wordBytes * i < x.arena.top + n → x.cell i = (0, false) := by
    intro i hi hin
    have hle : x.arena.top ≤ wordBytes * i := hwords ▸ Nat.mul_le_mul_left _ hi
    rw [hcells i hi, handmade_of_not_handles]
    exact hfree _ (by omega) (by omega)
  rw [hwords]
  refine ⟨fun k hk => Words.byteAt_eq_zero (congrArg Prod.fst (hblank _ ?_ ?_)), fun i hi hin =>
    congrArg Prod.snd (hblank i hi hin)⟩
  · exact Nat.div_le_div_right (Nat.le_add_right ..)
  · exact (Nat.mul_div_le ..).trans_lt (Nat.add_lt_add_left hk _)

/-- A pointer is stored in the next free word of the buffer, and the block is allocated around it. -/
def earlyCalls : List Call :=
  [.gather [0x100000000000], .reserveBuffer ⟨0, 0, 64⟩, .setPointer ⟨0x20010⟩ ⟨0x20000⟩]

/-- A block of two words that holds a pointer from the start. Only the second one of its words is blank. -/
theorem allocated_as_handmade_early :
    begin loneHeap.toHost ⟨⟨0x20000⟩, 0x1000, room_fits⟩ ⟨0x8000, 64, 0, false⟩ none false =
      .ok loneFresh ∧
    ((allocateOther 16).perform (loneFresh.afterCalls earlyCalls)).1 = .ok ⟨0x20010⟩ ∧
    ∃ o, ((allocateOther 16).perform (loneFresh.afterCalls earlyCalls)).2.session.output? = some o ∧
      o.buffer.bottom.toNat = 0x20000 ∧ o.cell 2 = (0x20000, true) ∧ o.cell 3 = (0, false) := by
  have hbegin : begin loneHeap.toHost ⟨⟨0x20000⟩, 0x1000, room_fits⟩ ⟨0x8000, 64, 0, false⟩ none false =
      .ok loneFresh := begin_fresh (by decide +kernel)
  have hok : ((allocateOther 16).perform (loneFresh.afterCalls earlyCalls)).1 = .ok ⟨0x20010⟩ := by
    decide +kernel
  have hbottom : (((allocateOther 16).perform (loneFresh.afterCalls earlyCalls)).2.session.output?.map
      (·.buffer.bottom.toNat)) = some 0x20000 := by decide +kernel
  have hhand : [0x20010, 0x20018].map (loneFresh.handmade · (0, false) earlyCalls) =
      [(0x20000, true), (0, false)] := by decide +kernel
  obtain ⟨o, i₀, ho, hplace, -, hcells, -⟩ :=
    allocated_as_handmade loneHeap_made.sound.sized hbegin earlyCalls hok
  rw [ho, Option.map_some, Option.some_inj] at hbottom
  obtain rfl : i₀ = 2 := by
    rw [hbottom] at hplace
    change 0x20010 = 0x20000 + 8 * i₀ at hplace
    omega
  simp only [List.map_cons, List.map_nil, List.cons.injEq, and_true] at hhand
  refine ⟨hbegin, hok, o, ho, hbottom, ?_, ?_⟩
  · rw [hcells 2 (by decide), hbottom]
    exact hhand.1
  · rw [hcells 3 (by decide), hbottom]
    exact hhand.2

end Session

end SnapshotArchive
