import SnapshotArchive.Proofs.Coverage
import SnapshotArchive.Proofs.Replacements

/-!
Failures that tell of a defect of the build: objects that were not found or not copied once, slots and
pointers out of range, steps out of order. Once objects are gathered and the buffer is reserved, copying
them may run out of space, but it meets none of these.
-/

namespace SnapshotArchive

/-- Whether a violation tells of a defect of the build. The others tell of defects of the host, or
    of estimates that were too small. -/
def Violation.isDefect : Violation → Bool
  | unresolvedPointer _ | duplicateRegistration _ | duplicateOutput _ => true
  | pointerOutOfRange _ _ | relocatedOutOfRange _ _ | slotOutsideBuffer _ => true
  | substituteNotArchived _ _ | copiedTwice _ _ | outOfOrder _ => true
  | unknownOutput _ | estimateTooSmall _ _ _ | badField _ _ _ => false
  | inconsistentMutability _ | duplicateInternedString _ | clearingLivePointer _ => false

@[inherit_doc Violation.isDefect]
def Failure.isDefect : Failure → Bool
  | .error (.invariant v) => v.isDefect
  | _ => false

/-- Space is all that allocation can lack. -/
theorem Arena.allocate_eq_error {a : Arena} {n : Nat} {e : BuildError} (h : a.allocate n = .error e) :
    Failure.isDefect e = false := by
  unfold allocate at h
  dsimp only at h
  split at h
  · split at h <;> cases h
    rfl
  · cases h
    rfl

namespace Catalog

variable {c c' : Catalog} {source : Word} {target : Addr .buffer} {e : SourceEntry}

/-- An output address that `c` gives a source for is that of the copy of that source. -/
def Claimed (c : Catalog) : Prop :=
  ∀ a v, c.sourceOf? a = some v → ∃ e, c.get? v = some e ∧ e.output? = some a

/-- The object of `e` that was not copied yet is given the free address `target`. -/
theorem place_free (he : c.get? source = some e) (hcopied : e.isCopied = true) (hfresh : e.output? = none)
    (hfree : c.sourceOf? target = none) : ∃ c', c.place source target = (.ok (), c') := by
  simp [place, he, hcopied, hfresh, hfree]

/-- A copy that is given its place `target` owns it. -/
theorem sourceOf?_place (hplace : c.place source target = (.ok (), c')) (a : Addr .buffer) :
    c'.sourceOf? a = if target = a then some source else c.sourceOf? a := by
  rcases c.place_cases source target with
    ⟨v, hcase, -⟩ | ⟨e, -, -, -, ⟨owner, -, hcase⟩ | ⟨-, hcase⟩⟩ <;> cases hcase.symm.trans hplace
  exact c.sourceOf?_withOwner target source a

/-- A copy is refused a free `target` without a change of `c`. -/
theorem place_refused {v : Violation} (hplace : c.place source target = (.error v, c'))
    (hfree : c.sourceOf? target = none) : c' = c := by
  rcases c.place_cases source target with
    ⟨v', hcase, -⟩ | ⟨e, -, -, -, ⟨owner, howner, -⟩ | ⟨-, hcase⟩⟩
  · cases hcase.symm.trans hplace
    rfl
  · rw [hfree] at howner
    cases howner
  · cases hcase.symm.trans hplace

theorem Claimed.place (h : c.Claimed) (hkeyed : ∀ w x, c.get? w = some x → x.source = w)
    (hplace : c.place source target = (.ok (), c')) : c'.Claimed := by
  obtain ⟨e, he, -, hfresh, hget⟩ := SessionM.place_eq_ok hplace
  obtain rfl := hkeyed source e he
  intro a v hv
  rw [sourceOf?_place hplace] at hv
  rw [hget]
  split at hv
  · rename_i ha
    obtain rfl := Option.some_inj.1 hv
    exact ⟨_, if_pos rfl, by rw [← ha]⟩
  · obtain ⟨x, hx, ho⟩ := h a v hv
    rw [if_neg]
    · exact ⟨x, hx, ho⟩
    · rintro rfl
      obtain rfl := Option.some_inj.1 (he.symm.trans hx)
      rw [hfresh] at ho
      cases ho

end Catalog

namespace SessionM

open Session

/-- The failure `f` tells of no defect. -/
def Harmless (f : Failure) (_ : Session) : Prop := f.isDefect = false

/-- What is known of an operation `m` is known of it where it meets no defect. -/
theorem Triple.harmless {α : Type} {P P' : Session → Prop} {m : SessionM α} {Q Q' : α → Session → Prop}
    {E : Failure → Session → Prop} (h : Triple P m Q E) (hh : Triple P' m Q' Harmless) :
    Triple (fun s => P s ∧ P' s) m (fun a s => Q a s ∧ Q' a s) Harmless :=
  (h.and hh).conseq (fun _ h => h) (fun _ _ h => h) fun _ _ h => h.2

variable {s : Session} {o : Output} {tables : TableProvider}

theorem triple_allocateCopy_harmless (hout : s.output? = some o)
    (hopen : s.stage.before .relocated = true) (n : Nat) :
    Triple (· = s) (allocateCopy n) (fun _ _ => True) Harmless := by
  rintro r rfl
  unfold allocateCopy
  simp only [wp_bind, wp_openOutput, hout, hopen, if_true, wp_ofBuild]
  rcases h : o.arena.allocate n with e | p
  · exact Arena.allocate_eq_error h
  · simp only [wp_changeOutput, wp_pure]

/-- A table in the buffer is put in front of a copy at `target`, and then the rest `k` is done. -/
theorem wp_installTable_at {α : Type} {target : Addr .buffer} {table? : Option (Addr .buffer)} {n : Nat}
    {k : SessionM α} {r : Run} {Q : α → Run → Prop} {E : Failure → Run → Prop}
    (hout : r.session.output? = some o) (hopen : r.session.stage.before .relocated = true)
    (htarget : o.buffer.slotOffset target = .ok n)
    (htable : ∀ table, table? = some table → ∃ m, o.buffer.slotOffset table = .ok m)
    (hk : ∀ o', k.wp Q E { r with session := { r.session with output? := some o' } }) :
    (match table? with
      | some table => installTable target table >>= fun _ => k
      | none => k).wp Q E r := by
  rcases table? with - | table
  · have hsame : r = { r with session := { r.session with output? := some o } } := by rw [← hout]
    rw [hsame]
    exact hk o
  · obtain ⟨m, hm⟩ := htable table rfl
    simp only [installTable, wp_bind, wp_openOutput, hout, hopen, if_true, wp_ofViolation, htarget, hm,
      wp_changeOutput, Option.map_some]
    exact hk _

theorem wp_placeCopy_free {source : Word} {target : Addr .buffer} {e : SourceEntry} {r : Run}
    {Q : Unit → Run → Prop} {E : Failure → Run → Prop} (he : r.session.catalog.get? source = some e)
    (hcopied : e.isCopied = true) (hfresh : e.output? = none)
    (hfree : r.session.catalog.sourceOf? target = none)
    (hdone : ∀ c, Q () { r with session := { r.session with catalog := c } }) :
    (placeCopy source target).wp Q E r := by
  obtain ⟨c, hc⟩ := Catalog.place_free he hcopied hfresh hfree
  unfold placeCopy
  simp only [wp_bind, wp_session, wp_update, wp_ofViolation, hc]
  exact hdone c

/-- An object that was not copied yet is copied above all other copies and above its table. -/
theorem triple_copyEntry_harmless (hout : s.output? = some o) (hopen : s.stage.before .relocated = true)
    (ha : o.arena.Sound) (hl : o.arena.length = o.buffer.length) {e : SourceEntry}
    (he : s.catalog.get? e.source = some e) (hcopied : e.isCopied = true) (hfresh : e.output? = none)
    (hsize : wordBytes ≤ e.size)
    (hclaimed : ∀ a v, s.catalog.sourceOf? a = some v → a.toNat < o.buffer.bottom.toNat + o.arena.top)
    (htables : ∀ target table, tables e.kind target = some table →
      ∃ m, table.toNat = o.buffer.bottom.toNat + m ∧ 8 ∣ m ∧ m ≤ o.arena.top) :
    Triple (· = s) (copyEntry tables e) (fun _ _ => True) Harmless := by
  rintro r rfl
  unfold copyEntry
  simp only [wp_bind, wp_openOutput, hout, hopen, if_true]
  have hlength : o.arena.length < addressLimit := by
    have := o.buffer.fits
    omega
  refine wp_maybe (I := fun s' => ∃ t, Advanced r.session o t s')
    (fun _ => ((triple_allocateCopy hout hopen ha hlength wordBytes).harmless
      (triple_allocateCopy_harmless hout hopen wordBytes)).conseq (fun _ h => ⟨h, h⟩)
      (fun _ _ ⟨⟨_, _, h⟩, _⟩ => ⟨_, h⟩) fun _ _ h => h) (fun _ => ⟨_, .self hout ha⟩) (fun _ _ h => h) ?_
  intro r₁ ⟨t₁, hlow₁, hhigh₁, hdvd₁, hs₁⟩
  have ha₁ := ha.advance hlow₁ hhigh₁ hdvd₁
  have hopen₁ : r₁.session.stage.before .relocated = true := by rw [hs₁]; exact hopen
  have hout₁ : r₁.session.output? = some { o with arena := o.arena.advance t₁ } := by rw [hs₁]
  simp only [wp_bind]
  refine ((triple_allocateCopy hout₁ hopen₁ ha₁ (by rw [Arena.length_advance]; exact hlength) e.size).harmless
    (triple_allocateCopy_harmless hout₁ hopen₁ e.size)).use ⟨rfl, rfl⟩ ?_ fun _ _ h => h
  rintro offset r₂ ⟨⟨rfl, hle, hlow, hhigh, hdvd, hs₂⟩, -⟩
  rw [hs₁] at hs₂
  generalize htop : { o with arena := o.arena.advance t₁ }.arena.top + allocatedBytes e.size = t at *
  simp only [Arena.top_advance, Arena.advance_advance, Arena.currentRegion_advance] at *
  have hlimit := ha.limit_le_length
  have hplace : (o.buffer.addrAt t₁).toNat = _ := Buffer.toNat_addrAt (by omega)
  rw [wp_copyWords, hs₂]
  dsimp only [Option.map_some]
  refine wp_installTable_at (o := filled o t t₁ r.session.host e) (n := t₁) ?_ ?_ ?_ ?_ fun o' => ?_
  · rfl
  · exact hopen
  · exact Buffer.slotOffset_eq_ok_iff.2 ⟨hplace, hdvd₁, show _ ≤ o.buffer.length by omega⟩
  · intro table htable
    obtain ⟨m, hm, hdvd_m, hle⟩ := htables _ table htable
    exact ⟨m, Buffer.slotOffset_eq_ok_iff.2 ⟨hm, hdvd_m, show _ ≤ o.buffer.length by omega⟩⟩
  · rw [wp_bind]
    refine wp_placeCopy_free (e := e) he hcopied hfresh ?_ fun c => ?_
    · refine Option.eq_none_iff_forall_ne_some.2 fun v hv => ?_
      have := hclaimed _ v hv
      omega
    · simp only [wp_bind, wp_tell, wp_openOutput, hopen, if_true, wp_update]

/-- The object at `w` claims its address in the buffer when it is copied. -/
theorem triple_copyObject_claimed (h : s.Sound) (hclaimed : s.catalog.Claimed) (w : Word) :
    Triple (· = s) (copyObject tables w) (fun _ s' => s'.catalog.Claimed) (fun _ _ => True) := by
  rintro r rfl
  unfold copyObject
  simp only [wp_bind, wp_session]
  rcases he : r.session.catalog.get? w with - | e
  · trivial
  · dsimp only
    rcases ho : r.session.output? with - | o
    · unfold copyEntry
      simp only [wp_bind, wp_openOutput, ho]
    · by_cases hopen : r.session.stage.before .relocated = true
      · have hf := h.filled o ho
        refine (triple_copyEntry ho hopen hf.arena hf.length tables e).use rfl ?_ fun _ _ _ => trivial
        rintro _ r' ⟨_, _, _, catalog, _, -, hplace, hr'⟩
        rw [hr']
        exact hclaimed.place h.books.keyed hplace
      · unfold copyEntry
        simp only [wp_bind, wp_openOutput, ho, hopen]
        trivial

end SessionM

end SnapshotArchive
