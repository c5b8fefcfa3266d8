import SnapshotArchive.Proofs.GatheringTwice
import SnapshotArchive.Proofs.Placement
import SnapshotArchive.Proofs.Reserving
import SnapshotArchive.Proofs.Tables

/-!
Filling two buffers from books that correspond. Everything is put at the same distance from the bottom of
either buffer, and what is put outside of copies is the same on both sides.
-/

namespace SnapshotArchive

/-- The offset of `w` is its distance `w - b.bottom` from the bottom, around the end of the address
    space. -/
theorem Buffer.offsetOf?_eq (b : Buffer) (w : Word) :
    b.offsetOf? w = if (w - b.bottom.word).toNat < b.length then some (w - b.bottom.word).toNat else none := by
  have hfits := b.fits
  have hw := w.toNat_lt
  have hdistance : (w - b.bottom.word).toNat = (2 ^ 64 - b.bottom.toNat + w.toNat) % 2 ^ 64 :=
    UInt64.toNat_sub w b.bottom.word
  have hin : b.range.contains w = true ↔ (w - b.bottom.word).toNat < b.length := by
    rw [AddrRange.contains_iff, Buffer.range_top, hdistance]
    change b.bottom.toNat ≤ w.toNat ∧ _ ↔ _
    simp only [addressLimit] at hfits
    omega
  have hwhere : b.range.contains w = true → w.toNat - b.bottom.toNat = (w - b.bottom.word).toNat := by
    rw [AddrRange.contains_iff, Buffer.range_top, hdistance]
    change b.bottom.toNat ≤ w.toNat ∧ _ → _
    simp only [addressLimit] at hfits
    omega
  simp only [offsetOf?]
  by_cases h : b.range.contains w = true
  · rw [if_pos h, if_pos (hin.1 h), hwhere h]
  · rw [if_neg h, if_neg (mt hin.2 h)]

theorem Buffer.distance_addrAt (b : Buffer) {n : Nat} (hn : n < addressLimit) :
    ((b.addrAt n).word - b.bottom.word).toNat = n := by
  have hword : (b.addrAt n).word - b.bottom.word = UInt64.ofNat n := by
    simp only [addrAt, Word.plus]
    grind
  rw [hword, UInt64.toNat_ofNat_of_lt' hn]

namespace Pairing.Level

variable {p : Pairing} {a b : Addr .buffer} {o o' : Buffer}

theorem addrAt (h : o.bottom = p.bottom) (h' : o'.bottom = p.bottom') (n : Nat) :
    p.Level (o.addrAt n) (o'.addrAt n) := by
  simp only [Level, Buffer.addrAt, Word.plus, h, h']
  grind

theorem plus (h : p.Level a b) (n : Nat) : p.Level ⟨a.word.plus n⟩ ⟨b.word.plus n⟩ := by
  simp only [Level, Word.plus] at *
  grind

/-- Level slots `a` and `b` are at the same offset, or neither is a slot. -/
theorem slotOffset (hl : p.Level a b) (h : o.bottom = p.bottom) (h' : o'.bottom = p.bottom')
    (hlength : o'.length = o.length) (sure : Prop) :
    Agree sure Eq (o.slotOffset a) (o'.slotOffset b) := by
  have hoffset : o'.offsetOf? b.word = o.offsetOf? a.word := by
    simp only [Level] at hl
    simp only [Buffer.offsetOf?_eq, h, h', hl, hlength]
  simp only [Buffer.slotOffset, hoffset, hlength]
  rcases o.offsetOf? a.word with - | n
  · trivial
  · dsimp only
    split
    · exact rfl
    · trivial

end Pairing.Level

/-- Word `i` is one of the words of `size` bytes from offset `n` on, the first one in any case. -/
def Covers (n size i : Nat) : Prop := ∃ j, i = n / wordBytes + j ∧ (j = 0 ∨ wordBytes * j < size)

theorem Words.read_copyBytes_of_not_covers {m : Words} {n size i : Nat} (source : Nat → Word)
    (hi : ¬Covers n size i) : (m.copyBytes (n / wordBytes) source size).read i = m.read i := by
  have hfull : (m.writeAll (n / wordBytes) source (size / wordBytes)).read i = m.read i := by
    rw [read_writeAll, if_neg]
    rintro ⟨hlow, hhigh⟩
    refine hi ⟨i - n / wordBytes, by omega, .inr ?_⟩
    simp only [wordBytes] at *
    omega
  simp only [copyBytes]
  split
  · exact hfull
  · rename_i hrest
    rw [read_write_ne, hfull]
    rintro rfl
    refine hi ⟨size / wordBytes, rfl, .inr ?_⟩
    simp only [wordBytes] at *
    omega

namespace Output.Mates

variable {p : Pairing} {hot : Nat → Prop} {o o' : Output}

theorem mono {hot' : Nat → Prop} (h : o.Mates p hot o') (hmore : ∀ i, hot i → hot' i) :
    o.Mates p hot' o' :=
  { h with words := fun i hi => h.words i fun hh => hi (hmore i hh) }

/-- The same word `w` at the same offset `n` keeps outputs alike. -/
theorem write (h : o.Mates p hot o') (n : Nat) (w : Word) : (o.write n w).Mates p hot (o'.write n w) :=
  { h with
    words := fun i hi => by
      simp only [Output.write, Buffer.write, Words.read_write]
      split
      · rfl
      · exact h.words i hi }

/-- Pointers `w` and `w'` in a word that may differ keep outputs alike. -/
theorem setPointer (h : o.Mates p hot o') {n : Nat} (hn : hot (n / wordBytes)) (w w' : Word) :
    (o.setPointer n w).Mates p hot (o'.setPointer n w') := by
  rw [setPointer_eq o n w, setPointer_eq o' n w']
  refine { h with words := fun i hi => ?_ }
  have hne : n / wordBytes ≠ i := fun heq => hi (heq ▸ hn)
  simp only [Buffer.write, Words.read_write, if_neg hne]
  exact h.words i hi

theorem copyIn (h : o.Mates p hot o') (n : Nat) (source source' : Nat → Word) (size : Nat) :
    Output.Mates p (fun i => hot i ∨ Covers n size i) { o with buffer := o.buffer.copyIn n source size }
      { o' with buffer := o'.buffer.copyIn n source' size } :=
  { h with
    words := fun i hi => by
      simp only [Buffer.copyIn, Words.read_copyBytes_of_not_covers _ (mt .inr hi)]
      exact h.words i (mt .inl hi) }

end Output.Mates

namespace Catalog

/-- Word `i` of the buffer at `bottom` belongs to a copy of `c`. -/
def InCopy (c : Catalog) (bottom : Addr .buffer) (i : Nat) : Prop :=
  ∃ w e target, c.get? w = some e ∧ e.output? = some target ∧
    Covers (target.word - bottom.word).toNat e.size i

/-- Copies of `a` and `a'` get level places on both sides or on neither. -/
theorem Mates.agree_place {p : Pairing} {c c' : Catalog} {a a' : Word} {target target' : Addr .buffer}
    (h : c.Mates p c') (hp : p.Fair) (hmate : p.Mate a a') (hl : p.Level target target') (sure : Prop) :
    Agree sure (fun _ _ => (c.place a target).2.Mates p (c'.place a' target').2) (c.place a target).1
      (c'.place a' target').1 := by
  have hrel := h.entries a a' hmate
  have hsources := h.sources target target' hl
  simp only [place]
  rcases he : c.get? a with - | e <;> rcases he' : c'.get? a' with - | e' <;> rw [he, he'] at hrel
  · trivial
  · cases hrel
  · cases hrel
  rcases hrel with hrel | -
  have hplaced : e'.output?.isSome = e.output?.isSome := by
    have hout := hrel.output
    generalize e.output? = x at hout ⊢
    generalize e'.output? = y at hout ⊢
    rcases hout with - | - <;> rfl
  simp only [hrel.isCopied, hplaced]
  split
  · trivial
  rcases hs : c.sourceOf? target with - | w <;> rcases hs' : c'.sourceOf? target' with - | w' <;>
    rw [hs, hs'] at hsources
  · have hclaimed : Mates p (Catalog.mk c.entries (c.sources.insert target.word a))
        (Catalog.mk c'.entries (c'.sources.insert target'.word a')) := by
      refine ⟨h.entries, h.mate, h.mate', fun t t' ht => ?_⟩
      -- level places are the same place on one side exactly if they are on the other
      have hsame : target'.word = t'.word ↔ target.word = t.word := by
        simp only [Pairing.Level] at hl ht
        grind
      simp only [sourceOf?, Std.TreeMap.getElem?_insert, Std.LawfulEqCmp.compare_eq_iff_eq, hsame]
      split
      · rfl
      · exact h.sources t t' ht
    exact hclaimed.put hp hmate (hrel.placed hl)
  · cases hsources
  · cases hsources
  · trivial

/-- Replaced objects `a` and `a'` are entered on both sides or on neither. -/
theorem Mates.agree_addAlias {p : Pairing} {c c' : Catalog} {a a' u u' : Word} (h : c.Mates p c')
    (hp : p.Fair) (hmate : p.Mate a a') (hu : p.Mate u u' ∨ (∀ v, ¬p.Mate u v) ∧ ∀ v, ¬p.Mate v u')
    (sure : Prop) :
    Agree sure (fun d d' => d.Mates p d' ∧ ∀ w x, c.get? w = some x → d.get? w = some x) (c.addAlias a u)
      (c'.addAlias a' u') := by
  simp only [addAlias]
  rcases hu with hu | ⟨hnone, hnone'⟩
  · have hrel := h.entries u u' hu
    generalize c.get? u = e? at hrel ⊢
    generalize c'.get? u' = e?' at hrel ⊢
    rcases hrel with @⟨e, e', he⟩ | -
    · dsimp only
      have hsettled := he.resolution_isSome
      have hformer := h.isSome hmate
      have hsource : (e.standIn a).source = a := rfl
      have hsource' : (e'.standIn a').source = a' := rfl
      generalize e.resolution? = r? at hsettled ⊢
      generalize e'.resolution? = r?' at hsettled ⊢
      rcases r? with - | r <;> rcases r?' with - | r'
      · trivial
      · cases hsettled
      · cases hsettled
      simp only [Catalog.add, hsource, hsource']
      rcases hget : c.get? a with - | x <;> rcases hget' : c'.get? a' with - | x' <;>
        rw [hget, hget'] at hformer
      · refine ⟨h.put hp hmate (he.standIn a a'), fun w x hw => ?_⟩
        rw [get?_put, hsource, if_neg, hw]
        rintro rfl
        rw [hget] at hw
        cases hw
      · cases hformer
      · cases hformer
      · trivial
    · trivial
  · rcases hget : c.get? u with - | x
    · rcases hget' : c'.get? u' with - | x'
      · trivial
      · obtain ⟨v, hv⟩ := h.mate' u' x' hget'
        exact absurd hv (hnone' v)
    · obtain ⟨v, hv⟩ := h.mate u x hget
      exact absurd hv (hnone v)

/-- Copies of `c` stay where they are when entries are added. -/
theorem InCopy.mono {c d : Catalog} {bottom : Addr .buffer} {i : Nat} (h : c.InCopy bottom i)
    (hkeep : ∀ w x, c.get? w = some x → d.get? w = some x) : d.InCopy bottom i := by
  obtain ⟨w, e, target, he, ht, hcovers⟩ := h
  exact ⟨w, e, target, hkeep w e he, ht, hcovers⟩

end Catalog

namespace Session

variable {p : Pairing} {hot : Nat → Prop} {s s' : Session} {o o' : Output}

theorem Mates.mono {hot' : Nat → Prop} (h : s.Mates p hot s') (hmore : ∀ i, hot i → hot' i) :
    s.Mates p hot' s' := by
  refine { h with output := ?_ }
  have hout := h.output
  generalize s.output? = o? at hout ⊢
  generalize s'.output? = o?' at hout ⊢
  rcases hout with hout | -
  · exact .some (hout.mono hmore)
  · exact .none

/-- Sessions `s` and `s'` are the same but for the addresses in them, and `s` has the catalog
    `c`. -/
structure Twins (p : Pairing) (c : Catalog) (hot : Nat → Prop) (s s' : Session) : Prop extends
    s.Mates p hot s' where
  known : s.catalog = c

end Session

namespace SessionM

open Session

variable {p : Pairing} {c : Catalog} {hot more : Nat → Prop} {sure : Prop}

theorem paired_output (step : String) :
    Paired sure (Session.Twins p c hot) (output step) (output step)
      fun o o' s s' => o.Mates p hot o' ∧ s.Twins p c hot s' := by
  simp only [output]
  refine Paired.read fun s s' h => ?_
  have hout := h.output
  generalize s.output? = o? at hout ⊢
  generalize s'.output? = o?' at hout ⊢
  rcases hout with hout | -
  · exact Lockstep.pure fun _ _ ht => ⟨hout, ht⟩
  · exact Lockstep.throw _ _

theorem paired_openOutput (step : String) :
    Paired sure (Session.Twins p c hot) (openOutput step) (openOutput step)
      fun o o' s s' => o.Mates p hot o' ∧ s.Twins p c hot s' := by
  simp only [openOutput]
  refine Paired.read fun s s' h => ?_
  have hout := h.output
  rw [h.stage]
  generalize s.output? = o? at hout ⊢
  generalize s'.output? = o?' at hout ⊢
  rcases hout with hout | -
  · rcases s.stage.before .relocated
    · exact Lockstep.throw _ _
    · exact Lockstep.pure fun _ _ ht => ⟨hout, ht⟩
  · exact Lockstep.throw _ _

/-- Outputs change alike by `f` and `f'`, but for the words `more`. -/
theorem paired_changeOutput {f f' : Output → Output}
    (h : ∀ o o', o.Mates p hot o' → (f o).Mates p more (f' o')) (hmore : ∀ i, hot i → more i) :
    Paired sure (Session.Twins p c hot) (changeOutput f) (changeOutput f')
      fun _ _ => Session.Twins p c more := by
  refine Paired.update fun s s' hs => ⟨{ hs.toMates.mono hmore with output := ?_ }, hs.known⟩
  have hout := hs.output
  generalize s.output? = o? at hout ⊢
  generalize s'.output? = o?' at hout ⊢
  rcases hout with hout | -
  · exact .some (h _ _ hout)
  · exact .none

/-- Outputs change alike by `f` and `f'`, and no more words may differ. -/
theorem paired_changeOutput_same {f f' : Output → Output}
    (h : ∀ o o', o.Mates p hot o' → (f o).Mates p hot (f' o')) :
    Paired sure (Session.Twins p c hot) (changeOutput f) (changeOutput f')
      fun _ _ => Session.Twins p c hot :=
  paired_changeOutput h fun _ => id

/-- A block of `bytes` bytes is allocated at the same offset. -/
theorem agree_allocate {o o' : Output} {any : Nat → Prop} (ho : o.Mates p any o') (bytes : Nat) :
    Agree sure (fun q q' => q' = q ∧ q.1 < addressLimit ∧ q.2.Sound ∧ q.2.length < addressLimit)
      (o.arena.allocate bytes) (o'.arena.allocate bytes) := by
  rw [ho.arena]
  rcases halloc : o.arena.allocate bytes with _ | ⟨n, arena⟩
  · trivial
  obtain ⟨rfl, -, hhigh, hdvd, rfl⟩ := Arena.allocate_eq_ok ho.sound.1 halloc
  have htop := ho.sound.1.top_le_length
  have hlength := ho.sound.2
  refine ⟨rfl, by omega, ho.sound.1.advance (by omega) hhigh hdvd, ?_⟩
  rw [Arena.length_advance]
  exact hlength

theorem paired_takeArena {arena : Arena} (hsound : arena.Sound ∧ arena.length < addressLimit) :
    Paired sure (Session.Twins p c hot) (changeOutput ({ · with arena })) (changeOutput ({ · with arena }))
      fun _ _ => Session.Twins p c hot :=
  paired_changeOutput_same fun _ _ ho => { ho with arena := rfl, sound := hsound }

theorem paired_allocateCopy (bytes : Nat) :
    Paired sure (Session.Twins p c hot) (allocateCopy bytes) (allocateCopy bytes)
      fun n n' s s' => (n' = n ∧ n < addressLimit) ∧ s.Twins p c hot s' := by
  simp only [allocateCopy]
  refine (paired_openOutput _).bind fun o o' => Lockstep.assume fun ho =>
    (Paired.ofBuild (agree_allocate ho bytes)).bind fun q q' => Lockstep.assume ?_
  rintro ⟨rfl, hlimit, hsound⟩
  exact (paired_takeArena hsound).bind fun _ _ => Lockstep.pure fun _ _ h => ⟨⟨rfl, hlimit⟩, h⟩

theorem paired_allocateOther (bytes : Nat) :
    Paired sure (Session.Twins p c hot) (allocateOther bytes) (allocateOther bytes)
      fun a a' s s' => p.Level a a' ∧ s.Twins p c hot s' := by
  simp only [allocateOther]
  refine Paired.read fun s s' h => ?_
  rw [h.stage]
  refine Lockstep.maybe Iff.rfl (Lockstep.throw _ _) ?_
  refine (paired_openOutput _).bind fun o o' => Lockstep.assume fun ho =>
    (Paired.ofBuild (agree_allocate ho bytes)).bind fun q q' => Lockstep.assume ?_
  rintro ⟨rfl, -, hsound⟩
  refine (paired_takeArena hsound).bind fun _ _ => Lockstep.bind (Q := fun _ _ => Session.Twins p c hot)
    (Paired.update fun _ _ h => { h with }) fun _ _ => Lockstep.pure fun _ _ h => ⟨?_, h⟩
  exact Pairing.Level.addrAt ho.bottom ho.bottom' _

theorem paired_slotOffset {o o' : Output} {any : Nat → Prop} (ho : o.Mates p any o') {a b : Addr .buffer}
    (hl : p.Level a b) :
    Paired sure (Session.Twins p c hot) (ofViolation (o.buffer.slotOffset a)) (ofViolation (o'.buffer.slotOffset b))
      fun n n' s s' => (n = n' ∧ o.buffer.slotOffset a = .ok n) ∧ s.Twins p c hot s' := by
  have hagree := hl.slotOffset ho.bottom ho.bottom' ho.length sure
  refine Paired.ofViolation (A := fun n n' => n = n' ∧ o.buffer.slotOffset a = .ok n) ?_
  generalize o.buffer.slotOffset a = x at hagree ⊢
  generalize o'.buffer.slotOffset b = x' at hagree ⊢
  rcases x with _ | n <;> rcases x' with _ | n'
  · trivial
  · exact hagree
  · exact hagree
  · exact ⟨hagree, rfl⟩

/-- The same word `w` goes to level slots. -/
theorem paired_writeWord {slot slot' : Addr .buffer} (hl : p.Level slot slot') (w : Word) :
    Paired sure (Session.Twins p c hot) (writeWord slot w) (writeWord slot' w)
      fun _ _ => Session.Twins p c hot := by
  simp only [writeWord]
  refine (paired_openOutput _).bind fun o o' => Lockstep.assume fun ho =>
    (paired_slotOffset ho hl).bind fun n n' => Lockstep.assume ?_
  rintro ⟨rfl, -⟩
  exact paired_changeOutput_same fun _ _ h => h.write _ _

theorem paired_prepareTable (t : DispatchTemplate) :
    Paired sure (Session.Twins p c hot) (prepareTable t) (prepareTable t)
      fun a a' s s' => p.Level a a' ∧ s.Twins p c hot s' := by
  simp only [prepareTable]
  refine (paired_allocateOther _).bind fun table table' => Lockstep.assume fun hl => ?_
  refine Lockstep.bind (Q := fun _ _ => Session.Twins p c hot) (Lockstep.forM (A := Eq) ?_
    (List.forall₂_same.2 fun _ _ => rfl)) fun _ _ => (Paired.tell _ _).bind fun _ _ =>
    Lockstep.pure fun _ _ h => ⟨hl, h⟩
  rintro ⟨entry, i⟩ _ rfl
  exact paired_writeWord (hl.plus _) entry

/-- Tables that `tables` and `tables'` give are at level places for objects at level places. -/
def LevelTables (p : Pairing) (tables tables' : TableProvider) : Prop :=
  ∀ kind target target', p.Level target target' → Option.Rel p.Level (tables kind target) (tables' kind target')

theorem paired_prepareTables (templates : List DispatchTemplate) :
    Paired sure (Session.Twins p c hot) (prepareTables templates) (prepareTables templates)
      fun tables tables' s s' => LevelTables p tables.provider tables'.provider ∧ s.Twins p c hot s' := by
  suffices hfold : ∀ tables tables' : DispatchTables, LevelTables p tables.provider tables'.provider →
      Paired sure (Session.Twins p c hot)
      (templates.foldlM (fun tables t => do return tables.insert t.kind (← prepareTable t)) tables)
      (templates.foldlM (fun tables t => do return tables.insert t.kind (← prepareTable t)) tables')
      fun tables tables' s s' => LevelTables p tables.provider tables'.provider ∧ s.Twins p c hot s' by
    exact hfold _ _ fun kind target target' _ => by simp [DispatchTables.provider]
  induction templates with
  | nil => exact fun tables tables' hl => Lockstep.pure fun _ _ h => ⟨hl, h⟩
  | cons t rest ih =>
    intro tables tables' hl
    rw [List.foldlM_cons, List.foldlM_cons]
    refine Lockstep.bind (Q := fun tables tables' s s' =>
        LevelTables p (DispatchTables.provider tables) (DispatchTables.provider tables') ∧ s.Twins p c hot s')
      ?_ fun more more' => Lockstep.assume (P := Session.Twins p c hot) (ih more more')
    refine (paired_prepareTable t).bind fun a a' => Lockstep.assume fun ha =>
      Lockstep.pure fun _ _ h => ⟨fun kind target target' htarget => ?_, h⟩
    have hkind := hl kind target target' htarget
    simp only [DispatchTables.provider, KindMap.get?_insert] at hkind ⊢
    split
    · exact .some ha
    · exact hkind

theorem paired_copyWords (n : Nat) (source source' : Word) (size : Nat) :
    Paired sure (Session.Twins p c hot) (copyWords n source size) (copyWords n source' size)
      fun _ _ => Session.Twins p c fun i => hot i ∨ Covers n size i := by
  simp only [copyWords]
  exact Paired.read fun s s' _ => paired_changeOutput (fun _ _ h => h.copyIn n _ _ size) fun _ => .inl

/-- Level tables are put into words that may differ. -/
theorem paired_installTable {target target' table table' : Addr .buffer} (ht : p.Level target target')
    (hl : p.Level table table')
    (hn : ∀ (b : Buffer) n, b.bottom = p.bottom → b.slotOffset target = .ok n → hot (n / wordBytes)) :
    Paired sure (Session.Twins p c hot) (installTable target table) (installTable target' table')
      fun _ _ => Session.Twins p c hot := by
  simp only [installTable]
  refine (paired_openOutput _).bind fun o o' => Lockstep.assume fun ho =>
    (paired_slotOffset ho ht).bind fun n n' => Lockstep.assume ?_
  rintro ⟨rfl, hoffset⟩
  refine (paired_slotOffset ho hl).bind fun _ _ => Lockstep.assume fun _ => ?_
  exact paired_changeOutput_same fun _ _ h => h.setPointer (hn _ _ ho.bottom hoffset) _ _

/-- Copies of `a` and `a'` get their places on both sides or on neither. -/
theorem paired_placeCopy (hp : p.Fair) {a a' : Word} (hmate : p.Mate a a') {target target' : Addr .buffer}
    (hl : p.Level target target') :
    Paired sure (Session.Twins p c hot) (placeCopy a target) (placeCopy a' target')
      fun _ _ s s' => c.place a target = (.ok (), s.catalog) ∧ s.Mates p hot s' := by
  simp only [placeCopy]
  refine Paired.peek fun s s' h => ?_
  have hplace := h.catalog.agree_place hp hmate hl sure
  have hknown := h.known
  rcases hp₁ : s.catalog.place a target with ⟨outcome, c₁⟩
  rcases hp₂ : s'.catalog.place a' target' with ⟨outcome', c₂⟩
  rw [hp₁, hp₂] at hplace
  refine Lockstep.bind (Q := fun _ _ t t' => Agree sure
      (fun _ _ => c.place a target = (.ok (), t.catalog) ∧ t.Mates p hot t') outcome outcome')
    (Paired.update ?_) fun _ _ => ?_
  · rintro t t' ⟨rfl, rfl, ht⟩
    rcases outcome with _ | _ <;> rcases outcome' with _ | _
    · trivial
    · exact hplace
    · exact hplace
    · exact ⟨hknown ▸ hp₁, { ht.toMates with catalog := hplace }⟩
  · intro r r' hr
    rcases outcome with _ | _ <;> rcases outcome' with _ | _ <;> exact hr

/-- Sessions `s` and `s'` have the same books, and buffers that differ at most in copies. -/
def CopiedAlike (p : Pairing) (s s' : Session) : Prop := ∃ c, s.Twins p c (c.InCopy p.bottom) s'

/-- Copies at `target` and `target'` are noted in the catalogs and counted. -/
theorem paired_finishCopy (hp : p.Fair) {a a' : Word} (hmate : p.Mate a a') {target target' : Addr .buffer}
    (hl : p.Level target target') {n : Nat} (hn : (target.word - p.bottom.word).toNat = n) {e : SourceEntry}
    (he : c.get? a = some e) (ha : e.source = a)
    {event event' : Event} {count count' : Output → Session → Stats} :
    Paired sure (Session.Twins p c fun i => c.InCopy p.bottom i ∨
        Covers n e.size i) (do
      placeCopy a target
      tell event
      let after ← openOutput "make_shallow_copy"
      update fun s => { s with stats := count after s }) (do
      placeCopy a' target'
      tell event'
      let after ← openOutput "make_shallow_copy"
      update fun s => { s with stats := count' after s }) fun _ _ => CopiedAlike p := by
  refine (paired_placeCopy hp hmate hl).bind fun _ _ => Lockstep.bind (Q := fun _ _ => CopiedAlike p) ?_
    fun _ _ => ?_
  · refine (Paired.tell _ _).conseq (P := CopiedAlike p) (fun s s' ⟨hplace, hs⟩ =>
      ⟨s.catalog, hs.mono fun i => ?_, rfl⟩) fun _ _ _ _ h => h
    obtain ⟨x, hx, -, hfresh, hget⟩ := place_eq_ok hplace
    obtain rfl : e = x := Option.some_inj.1 (he.symm.trans hx)
    rintro (⟨w, y, b, hw, hy, hcovers⟩ | hcovers)
    · refine ⟨w, y, b, ?_, hy, hcovers⟩
      rw [hget, if_neg, hw]
      rintro rfl
      rw [ha, he] at hw
      cases hw
      cases hfresh.symm.trans hy
    · exact ⟨a, { e with output? := some target }, target, by rw [hget, if_pos ha], rfl, hn ▸ hcovers⟩
  · exact Lockstep.pick fun c' => (paired_openOutput _).bind fun _ _ =>
      Paired.update fun _ _ h => ⟨c', { h.2 with }⟩

theorem paired_copyEntry (hp : p.Fair) {tables tables' : TableProvider} (ht : LevelTables p tables tables')
    {a a' : Word} (hmate : p.Mate a a') {e e' : SourceEntry} (he : c.get? a = some e)
    (hentry : e.Mates p a a' e') :
    Paired sure (Session.Twins p c (c.InCopy p.bottom)) (copyEntry tables e) (copyEntry tables' e')
      fun _ _ => CopiedAlike p := by
  simp only [copyEntry, hentry.kind, hentry.size, hentry.source', hentry.source]
  refine (paired_openOutput _).bind fun o o' => Lockstep.assume fun ho => ?_
  refine Lockstep.maybe Iff.rfl ((paired_allocateCopy _).conseq (fun _ _ h => h) fun _ _ _ _ h => h.2) ?_
  refine (paired_allocateCopy _).bind fun n n' => Lockstep.assume ?_
  rintro ⟨rfl, hlimit⟩
  have htarget := Pairing.Level.addrAt ho.bottom ho.bottom' n'
  have hplace : ((o.buffer.addrAt n').word - p.bottom.word).toNat = n' := by
    rw [← ho.bottom]
    exact Buffer.distance_addrAt _ hlimit
  refine (paired_copyWords _ _ _ _).bind fun _ _ => ?_
  have htable := ht e.kind _ _ htarget
  generalize tables e.kind (o.buffer.addrAt n') = table? at htable ⊢
  generalize tables' e.kind (o'.buffer.addrAt n') = table?' at htable ⊢
  rcases htable with htable | -
  · refine (paired_installTable htarget htable fun b n hb hn => ?_).bind fun _ _ =>
      paired_finishCopy hp hmate htarget hplace he hentry.source
    rw [Buffer.slotOffset_eq_ok, Buffer.offsetOf?_eq, hb, hplace] at hn
    obtain ⟨hn, -⟩ := hn
    obtain rfl : n = n' := by grind
    exact .inr ⟨0, rfl, .inl rfl⟩
  · exact paired_finishCopy hp hmate htarget hplace he hentry.source

theorem paired_copyObject (hp : p.Fair) {tables tables' : TableProvider} (ht : LevelTables p tables tables')
    {a a' : Word} (hmate : p.Mate a a') :
    Paired sure (CopiedAlike p) (copyObject tables a) (copyObject tables' a') fun _ _ => CopiedAlike p := by
  simp only [copyObject]
  refine Lockstep.pick fun c => Paired.read fun s s' h => ?_
  have hrel := h.catalog.entries a a' hmate
  have hknown := h.known
  rcases he : s.catalog.get? a with - | e <;> rcases he' : s'.catalog.get? a' with - | e' <;> rw [he, he'] at hrel
  · exact Lockstep.throw _ _
  · cases hrel
  · cases hrel
  · rcases hrel with hrel | -
    exact paired_copyEntry hp ht hmate (hknown ▸ he) hrel

theorem paired_copyRegion (hp : p.Fair) {tables tables' : TableProvider} (ht : LevelTables p tables tables')
    (kind : RegionKind) :
    Paired sure (CopiedAlike p) (copyRegion kind tables) (copyRegion kind tables') fun _ _ => CopiedAlike p := by
  simp only [copyRegion]
  refine Paired.read fun s s' ⟨c, h⟩ => (Lockstep.forM (A := p.Mate) (fun _ _ => paired_copyObject hp ht) ?_).bind
    fun _ _ => Paired.tell _ _
  rcases kind with - | -
  · exact h.mutable.sources
  · exact h.readOnly.sources

theorem paired_enterCopied (t : Stage) :
    Paired sure (CopiedAlike p) (enter t) (enter t) fun _ _ => CopiedAlike p :=
  Paired.update fun _ _ ⟨c, h⟩ => ⟨c, { h with stage := rfl }⟩

theorem paired_copyMutable (hp : p.Fair) {tables tables' : TableProvider} (ht : LevelTables p tables tables') :
    Paired sure (CopiedAlike p) (copyMutable tables) (copyMutable tables') fun _ _ => CopiedAlike p := by
  simp only [copyMutable]
  exact (Paired.requireStage _ _ fun _ _ ⟨_, h⟩ => h.stage).bind fun _ _ => (Paired.tell _ _).bind fun _ _ =>
    (paired_copyRegion hp ht _).bind fun _ _ => paired_enterCopied _

theorem paired_switchRegion :
    Paired sure (CopiedAlike p) switchRegion switchRegion fun _ _ => CopiedAlike p := by
  simp only [switchRegion]
  refine Lockstep.pick fun c => (paired_openOutput _).bind fun o o' => Lockstep.assume fun ho => ?_
  rw [ho.arena]
  refine (Paired.ofViolation (A := fun arena arena' => arena' = arena ∧ arena.Sound ∧
    arena.length < addressLimit) ?_).bind fun arena arena' => Lockstep.assume ?_
  · rcases hstart : o.arena.startReadOnly with _ | arena
    · trivial
    · obtain ⟨-, -, hsound, hlength, -⟩ := Arena.startReadOnly_eq_ok ho.sound.1 hstart
      exact ⟨rfl, hsound, hlength ▸ ho.sound.2⟩
  · rintro ⟨rfl, hsound⟩
    exact Paired.update fun s s' h => ⟨c, { h.toMates with
      output := .some { ho with arena := rfl, sound := hsound, meter := by rw [ho.meter] } }, h.known⟩

theorem paired_resolveReplaced (hp : p.Fair) {a a' : Word} (hmate : p.Mate a a') :
    Paired sure (CopiedAlike p) (resolveReplaced a) (resolveReplaced a') fun _ _ => CopiedAlike p := by
  simp only [resolveReplaced]
  refine Lockstep.pick fun c => Paired.read fun s s' h => ?_
  have hsubstitute := hp.corresponds.substitutes a a' hmate
  simp only [h.host, h.host', Heap.toHost]
  generalize p.heap.substitutes[a]? = u? at hsubstitute ⊢
  generalize p.heap'.substitutes[a']? = u?' at hsubstitute ⊢
  rcases hsubstitute with hu | -
  · refine (Paired.ofViolation (h.catalog.agree_addAlias hp hmate hu sure)).bind fun d d' => Lockstep.assume ?_
    rintro ⟨hd, hkeep⟩
    rw [h.known] at hkeep
    refine Lockstep.bind (Q := fun _ _ => CopiedAlike p) (Paired.update fun s s' hs => ⟨d, ?_⟩) fun _ _ => Paired.tell _ _
    exact ⟨{ hs.toMates.mono fun i hi => hi.mono hkeep with catalog := hd }, rfl⟩
  · exact Lockstep.throw _ _

theorem paired_verifyEstimate (n : Nat) (label : String) :
    Paired sure (CopiedAlike p) (verifyEstimate n label) (verifyEstimate n label)
      fun _ _ => CopiedAlike p := by
  simp only [verifyEstimate]
  refine Lockstep.pick fun c => (paired_openOutput _).bind fun o o' => Lockstep.assume fun ho => ?_
  refine (Paired.tell _ _).bind fun _ _ => (Paired.ofViolation (A := Eq) ?_).bind fun meter meter' =>
    Lockstep.assume ?_
  · rw [ho.meter, ho.arena]
    exact .refl _ _
  · rintro rfl
    have hchange : Paired sure (Session.Twins p c (c.InCopy p.bottom))
        (changeOutput ({ · with meter := meter })) (changeOutput ({ · with meter := meter }))
        fun _ _ => Session.Twins p c (c.InCopy p.bottom) :=
      paired_changeOutput_same fun _ _ h => { h with meter := rfl }
    refine hchange.conseq (fun _ _ h => h) ?_
    exact fun _ _ _ _ h => ⟨c, h⟩

theorem paired_copyReadOnly (hp : p.Fair) {tables tables' : TableProvider} (ht : LevelTables p tables tables') :
    Paired sure (CopiedAlike p) (copyReadOnly tables) (copyReadOnly tables') fun _ _ => CopiedAlike p := by
  simp only [copyReadOnly]
  refine (Paired.requireStage _ _ fun _ _ ⟨_, h⟩ => h.stage).bind fun _ _ => (Paired.tell _ _).bind fun _ _ =>
    paired_switchRegion.bind fun _ _ => (paired_copyRegion hp ht _).bind fun _ _ =>
    Paired.read fun s s' ⟨_, h⟩ => ?_
  refine (Lockstep.forM (A := p.Mate) (fun _ _ => paired_resolveReplaced hp) h.replaced).bind fun _ _ =>
    Lockstep.pick (P := fun c (s s' : Session) => s.Twins p c (c.InCopy p.bottom) s') fun c =>
    (paired_output _).bind fun o o' => Lockstep.assume fun ho => Paired.read fun t t' ht => ?_
  rw [ht.estimate, ho.advisories]
  exact Lockstep.bind (Q := fun _ _ => CopiedAlike p)
    ((paired_verifyEstimate _ _).conseq (fun _ _ h => ⟨c, h⟩) fun _ _ _ _ h => h) fun _ _ =>
    paired_enterCopied _

end SessionM

end SnapshotArchive
