import Mathlib.Tactic.Common
import SnapshotArchive.Graph.Heap
import SnapshotArchive.Proofs.Calls

/-!
What the final pass does to any contents. Whatever the words of a wired session are and whichever of
them are marked, the pass succeeds if and only if every marked pointer leads into the used part of the
buffer or into the dependency; it then shifts exactly these, and otherwise it names the lowest one that
leads nowhere.
-/

namespace SnapshotArchive

open SessionM

/-- Word `w` is an address of the used part of the buffer of `o`. -/
def Output.InUse (o : Output) (w : Word) : Prop :=
  o.buffer.bottom.toNat ≤ w.toNat ∧ w.toNat < o.buffer.bottom.toNat + o.arena.pack.top

/-- The output `o` with other `words` and other marks `pointers`. -/
def Output.withContents (o : Output) (words : Words) (pointers : Ledger) : Output :=
  { o with buffer := { o.buffer with words := words }, pointers := pointers }

namespace Session

/-- Word `w` is an address of the used part of the buffer or of the dependency. -/
def LeadsSomewhere (s : Session) (o : Output) (w : Word) : Prop :=
  o.InUse w ∨ ∃ d, s.dependency? = some d ∧ d.mapped.contains w = true

/-- The final pass makes `w'` of the pointer `w`. -/
inductive Shifts (s : Session) (o : Output) (requested : AddrRange .requested) (w w' : Word) : Prop where
  | own (here : o.InUse w)
      (shift : (w'.toNat : Int) = w.toNat + (o.requestedBottom.toNat - o.buffer.bottom.toNat))
      (inside : requested.contains w' = true)
  | foreign {d : Dependency} (elsewhere : ¬o.InUse w) (dependency : s.dependency? = some d)
      (there : d.mapped.contains w = true)
      (shift : (w'.toNat : Int) = w.toNat + (d.requested.bottom.toNat - d.mapped.bottom.toNat))
      (inside : d.requested.contains w' = true)

/-- The archive `a` is what the final pass makes of `o`. -/
structure Finished (s : Session) (o : Output) (a : Archive) : Prop where
  bottom : a.buffer.bottom = o.buffer.bottom
  length : a.buffer.length = o.buffer.length
  mutable : a.mutable = o.arena.pack.mutable
  readOnly : a.readOnly = o.arena.pack.readOnly
  requested_bottom : a.requested.bottom = o.requestedBottom
  requested_top : a.requested.top.toNat = o.requestedBottom.toNat + o.arena.pack.top
  pointers : ∀ i, o.pointers.has i = true → o.buffer.words.read i ≠ 0 →
    s.Shifts o a.requested (o.buffer.words.read i) (a.buffer.words.read i)
  others : ∀ i, (o.pointers.has i = false ∨ o.buffer.words.read i = 0) →
    a.buffer.words.read i = o.buffer.words.read i
  marks : ∀ i, a.pointers.has i = (o.pointers.has i && o.buffer.words.read i != 0)
  /-- The ledger ends with its last pointer. -/
  last : ∀ n, a.pointers.len = n + 1 → a.pointers.has n = true

variable {s : Session} {o o' : Output}

theorem landing_isSome (w : Word) : (s.landing o w).isSome = true ↔ s.LeadsSomewhere o w := by
  unfold landing LeadsSomewhere Output.InUse
  split
  · rename_i h
    exact ⟨fun _ => Or.inl h, fun _ => rfl⟩
  · rename_i h
    rw [Option.isSome_map]
    cases s.dependency? with
    | none => simp [h]
    | some d => cases hd : d.mapped.contains w <;> simp [h, hd]

/-- The place `n` where a pointer leads is its word shifted. -/
theorem shifts_of_landing (h : s.Sound) {requested : AddrRange .requested} {w : Word} {n : Nat}
    (hbottom : requested.bottom = o.requestedBottom)
    (htop : requested.top.toNat = o.requestedBottom.toNat + o.arena.pack.top)
    (hn : s.landing o w = some n) : s.Shifts o requested w (UInt64.ofNat n) := by
  have hlimit := requested.top.toNat_lt
  have hword : n < addressLimit → (UInt64.ofNat n).toNat = n := fun hlt => UInt64.toNat_ofNat_of_lt' hlt
  unfold landing at hn
  split at hn
  · rename_i hin
    cases hn
    have hto := hword (by omega)
    refine .own hin (by rw [hto]; omega) ?_
    rw [AddrRange.contains_iff, hbottom, htop, hto]
    omega
  · rename_i hout
    obtain ⟨d, hd, rfl⟩ := Option.map_eq_some_iff.1 hn
    obtain ⟨hd, hin⟩ := Option.filter_eq_some_iff.1 hd
    have hlength := (h.dependency d hd).2
    have hcontains := AddrRange.contains_iff.1 hin
    have hrequested := d.requested.bottom_add_length
    have hmapped := d.mapped.bottom_add_length
    have hdlimit := d.requested.top.toNat_lt
    have hto := hword (by omega)
    refine .foreign hout hd hin (by rw [hto]; omega) ?_
    rw [AddrRange.contains_iff, hto]
    omega

/-- The archive `a` is made of the output of a session whose pass is over. -/
theorem archive?_eq_some {a : Archive} (h : s.archive? = some a) : s.stage = .relocated ∧
    ∃ o requested, s.output? = some o ∧
      a = ⟨o.buffer, o.arena.mutable, o.arena.readOnly, o.pointers, requested⟩ := by
  unfold archive? at h
  split at h
  · rename_i hstage
    simp only [Option.pure_def, Option.bind_eq_bind, Option.bind_eq_some_iff, Option.some.injEq] at h
    obtain ⟨o, ho, top, -, requested, -, rfl⟩ := h
    exact ⟨hstage, o, requested, ho, rfl⟩
  · cases h

/-- A session whose pass is over has an archive `a`. -/
theorem finished_of_landed (h : s.Sound) (hl : Landed s o o') :
    ∃ a, archive? { s with output? := some o', stage := .relocated } = some a ∧ s.Finished o a := by
  obtain ⟨top, htop, htopNat⟩ := hl.top
  have hle : o'.requestedBottom.toNat ≤ top.toNat := by rw [hl.requested]; omega
  refine ⟨⟨o'.buffer, o'.arena.mutable, o'.arena.readOnly, o'.pointers, ⟨o'.requestedBottom, top, hle⟩⟩,
    ?_, hl.bottom, hl.length, by rw [hl.arena], by rw [hl.arena], hl.requested, htopNat, fun i hi hne => ?_, hl.others, hl.marks,
    fun n hn => ?_⟩
  · unfold archive?
    rw [if_pos rfl]
    simp [htop, AddrRange.ofBounds?, hle]
  · obtain ⟨n, hn, hword⟩ := hl.marked i hi hne
    change s.Shifts o _ _ (o'.buffer.words.read i)
    rw [hword]
    exact shifts_of_landing h hl.requested htopNat hn
  · have hsize := hl.size
    change o'.pointers.len = n + 1 at hn
    cases hlast : o'.pointers.lastOne? with
    | none =>
      rw [hlast, hn] at hsize
      cases hsize
    | some m =>
      rw [hlast, hn] at hsize
      cases hsize
      exact (Ledger.lastOne?_eq_some hlast).1

/-- The final pass, exactly. From any wired session `s` that callers can get to, with any `words` in
    the buffer and any of them marked in `pointers`, the pass succeeds if and only if each marked
    word that is not null leads into the used part of the buffer or into the dependency. It then
    makes an archive in which these words alone are shifted. Otherwise it reports the lowest slot
    that leads nowhere, and there is no archive. -/
theorem relocate_exact (h : s.Reachable) (hstage : s.stage = .wired) (ho : s.output? = some o)
    (words : Words) (pointers : Ledger) :
    let o' := o.withContents words pointers
    let s' := { s with output? := some o' }
    let p := relocate.perform s'
    (p.1 = .ok () ↔
      ∀ i, pointers.has i = true → words.read i ≠ 0 → s'.LeadsSomewhere o' (words.read i)) ∧
    (p.1 = .ok () → ∃ a, p.2.session.archive? = some a ∧ s'.Finished o' a) ∧
    (p.1 ≠ .ok () → ∃ i, pointers.has i = true ∧ words.read i ≠ 0 ∧
      ¬s'.LeadsSomewhere o' (words.read i) ∧
      (∀ j < i, pointers.has j = true → words.read j ≠ 0 → s'.LeadsSomewhere o' (words.read j)) ∧
      p.1 = .error (.error (.invariant (.pointerOutOfRange (i * wordBytes) (words.read i)))) ∧
      p.2.session.stage = .wired ∧ p.2.session.archive? = none) := by
  intro o' s' p
  have hroom : o.SameRoom o' := ⟨rfl, rfl, rfl, rfl⟩
  have hs : s'.Sound := h.sound.withOutput ((h.sound.filled o ho).sameRoom hroom)
  obtain ⟨_, hok, o₁, hland, hr⟩ | ⟨f, herror, i, ⟨hi, hne, hnone, hbefore⟩, rfl, o₁, top?, -, hr⟩ :=
    (triple_relocate hs rfl hstage).perform rfl
  · refine ⟨⟨fun _ i hi hne => ?_, fun _ => hok⟩, fun _ => ?_, fun hne => absurd hok hne⟩
    · obtain ⟨n, hn, -⟩ := hland.marked i hi hne
      rw [← landing_isSome]
      exact Option.isSome_iff_exists.2 ⟨n, hn⟩
    · obtain ⟨a, ha, hfinished⟩ := finished_of_landed hs hland
      exact ⟨a, by rw [← ha, ← hr], hfinished⟩
  · have hlost : ¬s'.LeadsSomewhere o' (words.read i) := by
      rw [← landing_isSome]
      change s'.landing o' (words.read i) = none at hnone
      rw [hnone]
      nofun
    refine ⟨⟨fun hok => ?_, fun hall => absurd (hall i hi hne) hlost⟩, fun hok => ?_, fun _ => ⟨i, hi, hne,
      hlost, fun j hj hj1 hj0 => (landing_isSome _).1 (hbefore j hj hj1 hj0), herror, ?_, ?_⟩⟩
    · exact nomatch herror.symm.trans hok
    · exact nomatch herror.symm.trans hok
    · change (relocate.perform _).2.session.stage = _
      rw [hr]
      exact hstage
    · unfold archive?
      change (if (relocate.perform _).2.session.stage = _ then _ else _) = none
      rw [hr, if_neg (by rw [hstage]; nofun)]

/-- Two objects that point at each other. -/
def pairHeap : Heap :=
  let m : HeapM Unit := do
    let a ← Heap.alloc .other 2 none
    let b ← Heap.alloc .other 2 none
    Heap.setPointer a 0 (some b) none
    Heap.setPointer b 1 (some a) none
  (m.run.run (Heap.create 0x100000000000 0)).2

/-- There is room for `0x1000` bytes at an address of the first MiB. -/
theorem room_fits : (⟨0x20000⟩ : Addr .buffer).toNat + 0x1000 < addressLimit := by decide

theorem eq_ok_of_toOption {ε α : Type} {a : α} : ∀ {x : Except ε α}, x.toOption = some a → x = .ok a
  | .ok _, rfl => rfl

/-- A session over the two objects, called up to the wiring. -/
def pairWired : Session :=
  (fresh pairHeap.toHost ⟨⟨0x20000⟩, 0x1000, room_fits⟩ ⟨0x8000, 8, 0, false⟩ none).afterCalls
    [.gather [0x100000000000], .reserveBuffer ⟨0, 0, 0⟩, .copyMutable noTables,
      .copyReadOnly noTables, .wire]

theorem pairWired_reachable : pairWired.Reachable := (Reachable.ofFresh rfl).afterCalls _

/-- The output of the session over the two objects. -/
def pairOutput : Output := pairWired.output?.get (by decide +kernel)

/-- A word marked by hand that holds the address of the first copy. -/
theorem relocate_exact_pair :
    let o := pairOutput.withContents (Words.zero.write 6 0x20010) ((Ledger.ofLength 8).insert 6)
    pairWired.Reachable ∧ pairWired.stage = .wired ∧ pairWired.output? = some pairOutput ∧
      (relocate.perform { pairWired with output? := some o }).1 = .ok () := by
  have hstage : pairWired.stage = .wired := by decide +kernel
  have hout : pairWired.output? = some pairOutput := (Option.some_get _).symm
  have hexact := relocate_exact pairWired_reachable hstage hout (Words.zero.write 6 0x20010)
    ((Ledger.ofLength 8).insert 6)
  refine ⟨pairWired_reachable, hstage, hout, hexact.1.2 fun i _ hne => ?_⟩
  obtain rfl : i = 6 := by
    by_contra hi
    exact hne (by rw [Words.read_write_ne _ _ (Ne.symm hi), Words.read_zero])
  left
  unfold Output.InUse
  decide +kernel

end Session

end SnapshotArchive
