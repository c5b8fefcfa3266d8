import Mathlib.Tactic.Common
import SnapshotArchive.Proofs.Regions

/-!
Wiring changes the slots of noted fields and nothing else. Each such slot is visited once, so the word
that is looked up is the one that the copy started out with, and what is stored is where its target
ended up.
-/

namespace SnapshotArchive

namespace SessionM

open Session

/-- The words of the buffer that hold the noted fields of the object at `w`. -/
def objectSlots (s : Session) (bottom : Addr .buffer) (l : CopyList) (w : Word) : List Nat :=
  match s.catalog.get? w with
  | none => []
  | some e =>
    match e.output? with
    | none => []
    | some target =>
      (l.pointerOffsets e).map fun offset =>
        (target.toNat - bottom.toNat + offset) / wordBytes

/-- The words of the buffer that hold the noted fields of the objects of the region `kind`. -/
def regionSlots (s : Session) (bottom : Addr .buffer) (kind : RegionKind) : List Nat :=
  (s.books.sources kind).flatMap (objectSlots s bottom (s.copyList kind))

/-- The output `o'` is `o` with the words `slots` wired. -/
structure Wired (c : Catalog) (o o' : Output) (slots : List Nat) : Prop where
  room : o.SameRoom o'
  words : ∀ j ∈ slots, ∃ outcome, c.resolve (o.buffer.words.read j) = .ok outcome ∧
    o'.buffer.words.read j = outcome.word
  others : ∀ j, j ∉ slots → o'.buffer.words.read j = o.buffer.words.read j
  marks : ∀ j, o'.pointers.has j =
    (o.pointers.has j || (decide (j ∈ slots) && o'.buffer.words.read j != 0))

namespace Wired

variable {c : Catalog} {o o' : Output} {slots : List Nat}

theorem nil (c : Catalog) (o : Output) : Wired c o o [] :=
  ⟨.refl o, nofun, fun _ _ => rfl, fun j => by simp⟩

/-- One more slot `j` is wired. -/
theorem snoc (h : Wired c o o' slots) {j : Nat} (hj : j ∉ slots) {outcome : Resolution}
    (hr : c.resolve (o.buffer.words.read j) = .ok outcome) :
    Wired c o (o'.setPointer (j * wordBytes) outcome.word) (slots ++ [j]) := by
  have hindex : j * wordBytes / wordBytes = j := Nat.mul_div_cancel _ (by decide)
  have hread : ∀ k, (o'.setPointer (j * wordBytes) outcome.word).buffer.words.read k =
      if j = k then outcome.word else o'.buffer.words.read k := by
    intro k
    rw [Output.setPointer_eq]
    change (o'.buffer.words.write (j * wordBytes / wordBytes) outcome.word).read k = _
    rw [hindex]
    exact Words.read_write ..
  refine ⟨h.room.setPointer _ _, fun k hk => ?_, fun k hk => ?_, fun k => ?_⟩
  · rw [hread]
    rcases List.mem_append.1 hk with hk | hk
    · have hne : j ≠ k := by rintro rfl; exact hj hk
      rw [if_neg hne]
      exact h.words k hk
    · obtain rfl := List.mem_singleton.1 hk
      exact ⟨outcome, hr, if_pos rfl⟩
  · rw [List.mem_append, List.mem_singleton, not_or] at hk
    rw [hread, if_neg (Ne.symm hk.2)]
    exact h.others k hk.1
  · rw [Output.has_setPointer, hindex, h.marks, hread]
    by_cases hkj : k = j
    · subst hkj
      simp [hj]
    · simp [hkj, Ne.symm hkj]

end Wired

theorem triple_wireField {s : Session} {o : Output} (ho : s.output? = some o) (offset : Nat) :
    Triple (· = s) (wireField offset)
      (fun _ s' => ∃ outcome, s.catalog.resolve (o.buffer.read offset) = .ok outcome ∧
        s' = { s with output? := some (o.setPointer offset outcome.word) })
      (fun _ s' => s' = s ∧ ∃ v, s.catalog.resolve (o.buffer.read offset) = .error v) := by
  rintro r rfl
  unfold wireField
  simp only [wp_bind, wp_output, wp_session, ho, wp_ofViolation]
  cases hr : r.session.catalog.resolve (o.buffer.read offset) with
  | error v => exact ⟨trivial, v, rfl⟩
  | ok outcome => exact ⟨outcome, rfl, by simp only [ho, Option.map_some]⟩

/-- A noted field of the copy of `w`, on the list `l`, is set to some word. -/
def WireStep (l : CopyList) (w : Word) (s s' : Session) : Prop :=
  ∃ o e target base offset word, s.output? = some o ∧ s.catalog.get? w = some e ∧
    e.output? = some target ∧ o.buffer.slotOffset target = .ok base ∧ offset ∈ l.pointerOffsets e ∧
    s' = { s with output? := some (o.setPointer (base + offset) word) }

theorem WireStep.touches {l : CopyList} {w : Word} {s s' : Session} (h : WireStep l w s s') :
    Touches s s' := by
  obtain ⟨o, e, target, base, offset, word, ho, -, -, -, -, rfl⟩ := h
  exact Or.inr ⟨o, _, ho, (Output.SameRoom.refl o).setPointer .., rfl⟩

/-- Wiring the object at `w` is a run of such steps, as far as it gets. -/
theorem keeps_wireObject {P : Session → Prop} {l : CopyList} {w : Word}
    (hP : ∀ s s', WireStep l w s s' → P s → P s') : Keeps P (wireObject l w) := by
  intro r h
  unfold wireObject
  simp only [wp_bind, wp_session]
  cases he : r.session.catalog.get? w with
  | none => exact h
  | some e =>
    dsimp only
    cases htarget : e.output? with
    | none => exact h
    | some target =>
      dsimp only
      rw [wp_bind, wp_output]
      cases ho : r.session.output? with
      | none => exact h
      | some o =>
        dsimp only
        rw [wp_bind, wp_ofViolation]
        cases hbase : o.buffer.slotOffset target with
        | error v => exact h
        | ok base =>
          -- the buffer stays where it is, so the place of the copy does
          let I (rest : List Nat) (s : Session) : Prop := (∀ n ∈ rest, n ∈ l.pointerOffsets e) ∧ P s ∧
            ∃ o', o.SameRoom o' ∧ s = { r.session with output? := some o' }
          refine (Triple.forM (I := I) (E := fun _ => P) (fun n rest r' hI => ?_) _).use
            ⟨fun _ hn => hn, h, o, .refl o, by rw [← ho]⟩ (fun _ _ hI => hI.2.1) fun _ _ hE => hE
          obtain ⟨hmem, hP', o', hroom, hr'⟩ := hI
          have ho' : r'.session.output? = some o' := by rw [hr']
          refine (triple_wireField ho' (base + n)).use rfl ?_ fun _ _ hs => by rw [hs.1]; exact hP'
          rintro _ r₁ ⟨outcome, -, hr₁⟩
          refine ⟨fun m hm => hmem m (List.mem_cons_of_mem _ hm), hP _ _ ⟨o', e, target, base, n, _, ho',
            by rw [hr']; exact he, htarget, ?_, hmem n (List.mem_cons_self ..), hr₁⟩ hP', _,
            hroom.setPointer _ _, by rw [hr₁, hr']⟩
          rw [Buffer.slotOffset_congr hroom.bottom hroom.length]
          exact hbase

theorem keeps_wireRegion {P : Session → Prop} (hP : ∀ s s' l w, WireStep l w s s' → P s → P s')
    (kind : RegionKind) : Keeps P (wireRegion kind) := by
  intro r h
  unfold wireRegion
  simp only [wp_bind, wp_session]
  exact Keeps.forM (fun w => keeps_wireObject fun s s' => hP s s' _ w) _ r h

/-- Wiring leads on, or a session that is as far as it was is left; what each step keeps of `C` it
    keeps. -/
theorem triple_wire_stage {C : Session → Prop}
    (hC : ∀ s s' l w, s.Sound → C s → WireStep l w s s' → C s') :
    Triple (fun s => s.Sound ∧ s.stage = .readOnlyCopied ∧ C s) wire
      (fun _ s => ∃ s₁, C s₁ ∧ s = { s₁ with stage := .wired } ∧ s.Sound)
      (fun _ s => s.Sound ∧ s.stage = .readOnlyCopied ∧ C s) := by
  have hP : ∀ s s' l w, WireStep l w s s' → s.Sound ∧ s.stage = .readOnlyCopied ∧ C s →
      s'.Sound ∧ s'.stage = .readOnlyCopied ∧ C s' := by
    rintro s s' l w hstep ⟨hs, hst, hCs⟩
    exact ⟨hstep.touches.sound hs, hstep.touches.stage.trans hst, hC s s' l w hs hCs hstep⟩
  rintro r ⟨h, hstage, hCr⟩
  unfold wire
  rw [wp_bind, wp_requireStage, if_pos hstage, wp_bind, wp_tell, wp_bind]
  refine (keeps_wireRegion hP .mutable).use ⟨h, hstage, hCr⟩ (fun _ r₁ h₁ => ?_) fun _ _ h => h
  rw [wp_bind]
  refine (keeps_wireRegion hP .readOnly).use h₁ (fun _ r₂ h₂ => ?_) fun _ _ h => h
  rw [wp_enter]
  obtain ⟨hs, hst, hC₂⟩ := h₂
  refine ⟨r₂.session, hC₂, rfl, hs.settings, hs.dependency, hs.books, fun hnone => ?_, fun o ho => ?_⟩
  · have hrank := (hs.bare hnone).1
    rw [hst] at hrank
    exact absurd hrank (by decide)
  · have hf := hs.filled o ho
    exact { hf with
      stage := show 2 ≤ 5 by decide
      reserved := nofun
      switched := fun _ => hf.switched (by rw [hst]; decide)
      copied := fun kind _ w hw => hf.copied kind (by rw [hst]; cases kind <;> decide) w hw }

theorem keeps_wire : Keeps Sound wire := by
  refine Keeps.ofStage ((triple_wire_stage (C := fun _ => True) fun _ _ _ _ _ _ _ => trivial).conseq
    (fun _ hs => ⟨hs.1, hs.2, trivial⟩) ?_ fun _ _ hs => hs.1)
  rintro _ s ⟨_, -, -, hs⟩
  exact hs

/-- Wiring `slots` stops at a field whose word leads nowhere, or at a copy that is no slot. -/
def WireStop (s : Session) (o : Output) (slots : List Nat) : Prop :=
  (∃ j ∈ slots, ∃ v, s.catalog.resolve (o.buffer.words.read j) = .error v) ∨
    ∃ w e target v, s.catalog.get? w = some e ∧ e.isAlias = false ∧ e.output? = some target ∧
      o.buffer.slotOffset target = .error v

/-- The session `s'` is `s` with `slots` wired so far. -/
def WiredTo (s : Session) (o : Output) (slots : List Nat) (s' : Session) : Prop :=
  ∃ o', Wired s.catalog o o' slots ∧ s' = { s with output? := some o' }

/-- Fields at `offsets` from `base`, none of which was wired before. -/
theorem triple_wireFields {s : Session} {o : Output} {base : Nat} {slots : List Nat} :
    ∀ (offsets : List Nat) (done : List Nat), (∀ n ∈ offsets, 8 ∣ base + n) →
      (done ++ offsets.map fun n => (base + n) / wordBytes).Nodup →
      (∀ n ∈ offsets, (base + n) / wordBytes ∈ slots) →
      Triple (WiredTo s o done) (offsets.forM fun n => wireField (base + n))
        (fun _ => WiredTo s o (done ++ offsets.map fun n => (base + n) / wordBytes))
        (fun _ _ => WireStop s o slots)
  | [], done, _, _, _ => fun _ hr => by rw [List.map_nil, List.append_nil]; exact hr
  | n :: rest, done, haligned, hnodup, hslots => by
    rw [List.map_cons, List.append_cons] at hnodup ⊢
    change Triple _ (wireField (base + n) >>= fun _ => rest.forM _) _ _
    refine Triple.bind (Q := fun _ => WiredTo s o (done ++ [(base + n) / wordBytes])) ?_ fun _ =>
      triple_wireFields rest _ (fun m hm => haligned m (List.mem_cons_of_mem _ hm)) hnodup
        fun m hm => hslots m (List.mem_cons_of_mem _ hm)
    rintro r ⟨o', hwired, hr⟩
    have hplace : (base + n) / wordBytes * wordBytes = base + n :=
      Nat.div_mul_cancel (haligned n (List.mem_cons_self ..))
    have hfresh : (base + n) / wordBytes ∉ done := fun hmem =>
      (List.nodup_append.1 (List.nodup_append.1 hnodup).1).2.2 _ hmem _ (List.mem_singleton.2 rfl) rfl
    have hread : o'.buffer.read (base + n) = o.buffer.words.read ((base + n) / wordBytes) :=
      hwired.others _ hfresh
    have hcatalog : r.session.catalog = s.catalog := by rw [hr]
    refine (triple_wireField (s := r.session) (o := o') (by rw [hr]) (base + n)).use rfl ?_ ?_
    · rintro _ r' ⟨outcome, hout, hr'⟩
      rw [hread, hcatalog] at hout
      have hnext := hwired.snoc hfresh hout
      rw [hplace] at hnext
      exact ⟨_, hnext, by rw [hr', hr]⟩
    · rintro f r' ⟨-, v, hv⟩
      rw [hread, hcatalog] at hv
      exact Or.inl ⟨_, hslots n (List.mem_cons_self ..), v, hv⟩

/-- The object at `w` of a list whose copy was made at `target`. -/
theorem triple_wireObject {s : Session} {o : Output} {l : CopyList} {w : Word} {e : SourceEntry}
    {target : Addr .buffer} {slots : List Nat} (he : s.catalog.get? w = some e)
    (hplain : e.isAlias = false) (ht : e.output? = some target)
    (hdvd : ∀ n ∈ l.pointerOffsets e, 8 ∣ n) (done : List Nat)
    (hnodup : (done ++ objectSlots s o.buffer.bottom l w).Nodup)
    (hslots : ∀ j ∈ objectSlots s o.buffer.bottom l w, j ∈ slots) :
    Triple (WiredTo s o done) (wireObject l w)
      (fun _ => WiredTo s o (done ++ objectSlots s o.buffer.bottom l w))
      (fun _ _ => WireStop s o slots) := by
  have hobject : objectSlots s o.buffer.bottom l w = (l.pointerOffsets e).map fun n =>
      (target.toNat - o.buffer.bottom.toNat + n) / wordBytes := by
    unfold objectSlots
    rw [he]
    dsimp only
    rw [ht]
  rintro r ⟨o', hwired, hr⟩
  unfold wireObject
  simp only [wp_bind, wp_session]
  rw [hr, he]
  dsimp only
  rw [ht]
  dsimp only
  rw [wp_bind, wp_output, hr]
  dsimp only
  rw [wp_bind, wp_ofViolation, Buffer.slotOffset_congr hwired.room.bottom hwired.room.length]
  cases hslot : o.buffer.slotOffset target with
  | error v => exact Or.inr ⟨w, e, target, v, he, hplain, ht, hslot⟩
  | ok base =>
    obtain ⟨hbase, hbdvd, -⟩ := Buffer.slotOffset_eq_ok_iff.1 hslot
    obtain rfl : target.toNat - o.buffer.bottom.toNat = base := by omega
    rw [hobject] at hnodup hslots ⊢
    dsimp only
    refine (triple_wireFields (s := s) (o := o) (l.pointerOffsets e) done
      (fun n hn => Nat.dvd_add hbdvd (hdvd n hn)) hnodup
      fun n hn => hslots _ (List.mem_map_of_mem hn)).use ⟨o', hwired, hr⟩ (fun _ _ h => h) fun _ _ h => h

/-- The objects `ws` of a region, whose copies were all made. -/
theorem triple_wireObjects {s : Session} {o : Output} {l : CopyList} {slots : List Nat} :
    ∀ (ws : List Word) (done : List Nat),
      (∀ w ∈ ws, ∃ e target, s.catalog.get? w = some e ∧ e.isAlias = false ∧
        e.output? = some target ∧ ∀ n ∈ l.pointerOffsets e, 8 ∣ n) →
      (done ++ ws.flatMap (objectSlots s o.buffer.bottom l)).Nodup →
      (∀ j ∈ ws.flatMap (objectSlots s o.buffer.bottom l), j ∈ slots) →
      Triple (WiredTo s o done) (ws.forM (wireObject l))
        (fun _ => WiredTo s o (done ++ ws.flatMap (objectSlots s o.buffer.bottom l)))
        (fun _ _ => WireStop s o slots)
  | [], done, _, _, _ => fun _ hr => by rw [List.flatMap_nil, List.append_nil]; exact hr
  | w :: ws, done, hplaced, hnodup, hslots => by
    rw [List.flatMap_cons] at hslots
    rw [List.flatMap_cons, ← List.append_assoc] at hnodup ⊢
    obtain ⟨e, target, he, hplain, ht, hdvd⟩ := hplaced w (List.mem_cons_self ..)
    change Triple _ (wireObject l w >>= fun _ => ws.forM _) _ _
    exact (triple_wireObject he hplain ht hdvd done (List.nodup_append.1 hnodup).1
      fun j hj => hslots j (List.mem_append_left _ hj)).bind fun _ =>
        triple_wireObjects ws _ (fun v hv => hplaced v (List.mem_cons_of_mem _ hv)) hnodup
          fun j hj => hslots j (List.mem_append_right _ hj)

/-- The words of the buffer at `bottom` that hold noted fields. -/
def wireSlots (s : Session) (bottom : Addr .buffer) : List Nat :=
  regionSlots s bottom .mutable ++ regionSlots s bottom .readOnly

/-- Wiring wires the noted fields of all copies in `o`, or stops at one whose word leads nowhere. -/
theorem triple_wire {s : Session} {o : Output} (h : s.Sound) (ho : s.output? = some o)
    (hstage : s.stage = .readOnlyCopied)
    (hdvd : ∀ kind e, ∀ n ∈ (s.copyList kind).pointerOffsets e, 8 ∣ n)
    (hnodup : (wireSlots s o.buffer.bottom).Nodup) :
    Triple (· = s) wire
      (fun _ s' => ∃ o', Wired s.catalog o o' (wireSlots s o.buffer.bottom) ∧
        s' = { s with output? := some o', stage := .wired })
      (fun _ _ => WireStop s o (wireSlots s o.buffer.bottom)) := by
  have hplaced : ∀ kind, ∀ w ∈ s.books.sources kind, ∃ e target, s.catalog.get? w = some e ∧
      e.isAlias = false ∧ e.output? = some target ∧
      ∀ n ∈ (s.copyList kind).pointerOffsets e, 8 ∣ n := by
    intro kind w hw
    obtain ⟨e, he, -, hplain, -⟩ := h.books.listed kind w hw
    obtain ⟨x, hx, hout⟩ := (h.filled o ho).copied kind (by rw [hstage]; cases kind <;> decide) w hw
    obtain rfl : e = x := Option.some_inj.1 (he.symm.trans hx)
    obtain ⟨target, ht⟩ := Option.isSome_iff_exists.1 hout
    exact ⟨e, target, he, hplain, ht, hdvd kind e⟩
  have hregion : ∀ kind done, (done ++ regionSlots s o.buffer.bottom kind).Nodup →
      (∀ j ∈ regionSlots s o.buffer.bottom kind, j ∈ wireSlots s o.buffer.bottom) →
      Triple (WiredTo s o done) (wireRegion kind)
        (fun _ => WiredTo s o (done ++ regionSlots s o.buffer.bottom kind))
        (fun _ _ => WireStop s o (wireSlots s o.buffer.bottom)) := by
    rintro kind done hnodup hslots r ⟨o', hwired, hr⟩
    have hlist : r.session.copyList kind = s.copyList kind := by rw [hr]; cases kind <;> rfl
    unfold wireRegion
    simp only [wp_bind, wp_session]
    rw [hlist, ← sources_books]
    exact triple_wireObjects _ done (hplaced kind) hnodup hslots r ⟨o', hwired, hr⟩
  rintro r rfl
  unfold wire
  rw [wp_bind, wp_requireStage, if_pos hstage, wp_bind, wp_tell, wp_bind]
  refine (hregion .mutable [] (List.nodup_append.1 hnodup).1 fun j hj =>
    List.mem_append_left _ hj).use ⟨o, .nil .., by rw [← ho]⟩ (fun _ r₁ h₁ => ?_) fun _ _ h => h
  rw [wp_bind]
  refine (hregion .readOnly _ hnodup fun j hj => List.mem_append_right _ hj).use h₁
    (fun _ r₂ h₂ => ?_) fun _ _ h => h
  obtain ⟨o', hwired, hr₂⟩ := h₂
  rw [wp_enter, hr₂]
  exact ⟨o', hwired, rfl⟩

end SessionM

end SnapshotArchive
