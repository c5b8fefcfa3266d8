import Mathlib.Tactic.Common
import SnapshotArchive.Proofs.Calls
import SnapshotArchive.Proofs.Defects

/-!
What calls do, one change at a time. Every call, also one that fails, leads through a series of sound
sessions, and each is the one before it after one of a few changes. So what every change keeps, every
call keeps.
-/

namespace SnapshotArchive

/-- Bytes in front of a copy: those of the lookup record of a type descriptor. -/
def ObjectKind.lead (kind : ObjectKind) : Nat := if kind = .typeDescriptor then wordBytes else 0

/-- The address `target` lies above all that is allocated in `o`, with room for a lookup record
    below it. -/
def Output.Clears (o : Output) (kind : ObjectKind) (target : Addr .buffer) : Prop :=
  o.buffer.bottom.toNat + o.arena.top + kind.lead ≤ target.toNat

/-- The host `h` may report `e`: as the reference to a root, or as one that an object holds. -/
inductive Host.Refers (h : Host) (e : Edge) : Prop where
  | root {a : Word} (reported : h.rootEdge? a = some e) : Refers h e
  | held {w : Word} {es : List Edge} (reported : h.edges w = .ok es) (mem : e ∈ es) : Refers h e

namespace SessionM

open Session

variable {s s' : Session} {o : Output} {tables : TableProvider} {e : SourceEntry}

/-- The catalog of `s'` after a copy of `e` that failed: as in `s`, or as it is once a place was
    refused. -/
def Refused (s : Session) (o : Output) (e : SourceEntry) (s' : Session) : Prop :=
  s'.catalog = s.catalog ∨ ∃ target v, o.Clears e.kind target ∧
    s.catalog.place e.source target = (.error v, s'.catalog)

/-- The last part of a copy: it is given its place `target`, and counted. -/
theorem wp_place_finish {target : Addr .buffer} {r : Run} {event : Event}
    {count : Output → Session → Session} (o' : Output) (hr : r.session.output? = some o')
    (hcatalog : r.session.catalog = s.catalog) (hopen : r.session.stage.before .relocated = true)
    (hcount : ∀ o s, (count o s).catalog = s.catalog) (hclear : o.Clears e.kind target) :
    SessionM.wp (do
      placeCopy e.source target
      tell event
      let after ← openOutput "make_shallow_copy"
      update (count after))
    (fun _ r' => ∃ target, o.Clears e.kind target ∧
        s.catalog.place e.source target = (.ok (), r'.session.catalog))
    (fun _ r' => Refused s o e r'.session) r := by
  unfold placeCopy
  simp only [wp_bind, wp_session, wp_update, wp_ofViolation, hcatalog]
  rcases hplace : s.catalog.place e.source target with ⟨v | ⟨⟩, c⟩
  · exact .inr ⟨target, v, hclear, hplace⟩
  · simp only [wp_tell, wp_openOutput, hr, hopen, if_true, hcount]
    exact ⟨target, hclear, hplace⟩

/-- A copy of `e` is noted in the catalog at a `target` above all that was allocated before. -/
theorem triple_copyEntry_place (hout : s.output? = some o) (hopen : s.stage.before .relocated = true)
    (ha : o.arena.Sound) (hl : o.arena.length = o.buffer.length) (tables : TableProvider)
    (e : SourceEntry) :
    Triple (· = s) (copyEntry tables e)
      (fun _ s' => ∃ target, o.Clears e.kind target ∧
        s.catalog.place e.source target = (.ok (), s'.catalog))
      (fun _ => Refused s o e) := by
  rintro r rfl
  have hlength : o.arena.length < addressLimit := by
    have := o.buffer.fits
    omega
  unfold copyEntry
  simp only [wp_bind, wp_openOutput, hout, hopen, if_true]
  refine wp_maybe (I := fun s' => ∃ t, o.arena.top + e.kind.lead ≤ t ∧ Advanced r.session o t s')
    (F := fun _ s' => s' = r.session)
    (fun hkind => (triple_allocateCopy hout hopen ha hlength wordBytes).conseq (fun _ h => h)
      (fun _ _ ⟨_, hle, h⟩ => ⟨_, ?_, h⟩) fun _ _ h => h.1)
    (fun hkind => ⟨_, ?_, .self hout ha⟩) (fun _ r' h => .inl (by rw [h])) ?_
  · rw [ObjectKind.lead, if_pos hkind]
    exact Nat.add_le_add_left hle _
  · rw [ObjectKind.lead, if_neg hkind]
    exact Nat.le_refl _
  rintro r₁ ⟨t₁, hlead, hlow₁, hhigh₁, hdvd₁, hs₁⟩
  have ha₁ := ha.advance hlow₁ hhigh₁ hdvd₁
  have hopen₁ : r₁.session.stage.before .relocated = true := by rw [hs₁]; exact hopen
  simp only [wp_bind]
  refine (triple_allocateCopy (s := r₁.session) (o := { o with arena := o.arena.advance t₁ })
    (by rw [hs₁]) hopen₁ ha₁ (by rw [Arena.length_advance]; exact hlength) e.size).use rfl ?_
    fun _ r₂ h₂ => .inl (by rw [h₂.1, hs₁])
  rintro offset r₂ ⟨rfl, -, -, -, -, hs₂⟩
  rw [hs₁] at hs₂
  simp only [Arena.top_advance] at *
  have hin : t₁ ≤ o.buffer.length := by
    have := ha.limit_le_length
    omega
  have hplace : (o.buffer.addrAt t₁).toNat = _ := Buffer.toNat_addrAt hin
  have hclear : o.Clears e.kind (o.buffer.addrAt t₁) := by
    unfold Output.Clears
    omega
  rw [wp_copyWords, hs₂]
  dsimp only [Option.map_some]
  cases tables e.kind (o.buffer.addrAt t₁) with
  | none => exact wp_place_finish _ rfl rfl hopen (fun _ _ => rfl) hclear
  | some table =>
    rw [wp_bind]
    refine wp_installTable t₁ rfl hopen (fun n hn => ?_) (fun _ => .inl rfl)
      (wp_place_finish _ rfl rfl hopen (fun _ _ => rfl) hclear)
    have := (Buffer.slotOffset_eq_ok_iff.1 hn).1
    rw [hplace] at this
    change _ = o.buffer.bottom.toNat + n at this
    omega

/-- The object at `w` is given a place above all that was allocated before. -/
def PlaceStep (w : Word) (s s' : Session) : Prop :=
  ∃ e o target, s.catalog.get? w = some e ∧ s.output? = some o ∧ o.Clears e.kind target ∧
    s.catalog.place w target = (.ok (), s'.catalog)

/-- The object at `w` is given no place; the catalog changes only where one is refused. -/
def PlaceHalt (w : Word) (s s' : Session) : Prop :=
  s'.catalog = s.catalog ∨ ∃ e o target v, s.catalog.get? w = some e ∧ s.output? = some o ∧
    o.Clears e.kind target ∧ s.catalog.place w target = (.error v, s'.catalog)

theorem triple_copyObject_place (h : s.Sound) (w : Word) :
    Triple (· = s) (copyObject tables w) (fun _ => PlaceStep w s) (fun _ => PlaceHalt w s) := by
  rintro r rfl
  unfold copyObject
  simp only [wp_bind, wp_session]
  cases he : r.session.catalog.get? w with
  | none => exact .inl rfl
  | some e =>
    obtain rfl : e.source = w := h.books.keyed w e he
    dsimp only
    cases ho : r.session.output? with
    | none =>
      unfold copyEntry
      simp only [wp_bind, wp_openOutput, ho]
      exact .inl rfl
    | some o =>
      by_cases hopen : r.session.stage.before .relocated = true
      · have hf := h.filled o ho
        refine (triple_copyEntry_place ho hopen hf.arena hf.length tables e).use rfl ?_ ?_
        · rintro _ r' ⟨target, hclear, hplace⟩
          exact ⟨e, o, target, he, ho, hclear, hplace⟩
        · rintro _ r' (hsame | ⟨target, v, hclear, hplace⟩)
          · exact .inl hsame
          · exact .inr ⟨e, o, target, v, he, ho, hclear, hplace⟩
      · unfold copyEntry
        simp only [wp_bind, wp_openOutput, ho, hopen]
        exact .inl rfl

/-- One change of the session `s`. -/
inductive Change (s : Session) : Session → Prop where
  | seeded {s' : Session} (new : s.stage = .new) (step : SeedChange s s') : Change s s'
  | noted {e : Edge} {s' : Session} (new : s.stage = .new) (refers : s.host.Refers e)
      (step : NoteStep s e s') : Change s s'
  | found {e : Edge} {v : Visit} {s' : Session} (new : s.stage = .new) (refers : s.host.Refers e)
      (step : EnterStep s e v s') : Change s s'
  | reserved {a : Advisories} {o : Output} (stage : s.stage = .gathered) (fresh : Fresh s a o) :
      Change s { s with output? := some o, stage := .reserved }
  | allocated {o : Output} {n : Nat} {stats : Stats} (out : s.output? = some o)
      (limit : o.arena.top + allocatedBytes n ≤ o.arena.currentRegion.limit)
      (words : 8 ∣ o.arena.top + allocatedBytes n) :
      Change s { s with
        output? := some { o with arena := o.arena.advance (o.arena.top + allocatedBytes n) }
        stats := stats }
  | slot {slot : Addr .buffer} {s' : Session} (step : SlotStep slot s s') : Change s s'
  | metered {s' : Session} (step : Metered s s') : Change s s'
  | copied {tables : TableProvider} {w : Word} {rest : List Word} {kind : RegionKind} {s' : Session}
      (copying : Copying kind s.stage (w :: rest) s) (step : CopyStep tables w s s')
      (place : PlaceStep w s s') : Change s s'
  | halted {tables : TableProvider} {w : Word} {rest : List Word} {kind : RegionKind} {f : Failure}
      {s' : Session} (copying : Copying kind s.stage (w :: rest) s) (halt : CopyHalt tables w s f s')
      (place : PlaceHalt w s s') : Change s s'
  | switched {s' : Session} (stage : s.stage = .mutableCopied) (step : SwitchStep s s') : Change s s'
  | aliased {former substitute : Word} {s' : Session} (step : AliasStep former substitute s s') : Change s s'
  | linked {l : CopyList} {w : Word} {s' : Session} (step : WireStep l w s s') : Change s s'
  | landed {o o' : Output} (stage : s.stage = .wired) (out : s.output? = some o) (land : Landed s o o') :
      Change s { s with output? := some o', stage := .relocated }
  | stranded {o o' : Output} {i : Nat} (stage : s.stage = .wired) (out : s.output? = some o)
      (halt : Halted s o i o') : Change s { s with output? := some o' }
  /-- The steps that leave the output as it is. -/
  | entered {t : Stage} (next : t.rank = s.stage.rank + 1) : Change s { s with stage := t }

/-- No change replaces the host, the settings, or the dependency. -/
theorem Change.frame (hc : Change s s') :
    s'.host = s.host ∧ s'.settings = s.settings ∧ s'.dependency? = s.dependency? := by
  cases hc with
  | seeded _ step => obtain ⟨_, _, _, rfl⟩ := step; exact ⟨rfl, rfl, rfl⟩
  | noted _ _ step => rw [step.frame]; exact ⟨rfl, rfl, rfl⟩
  | found _ _ step => rw [step.frame]; exact ⟨rfl, rfl, rfl⟩
  | slot step => obtain ⟨_, _, _, -, -, -, rfl⟩ := step; exact ⟨rfl, rfl, rfl⟩
  | metered step => obtain ⟨_, -, rfl⟩ := step; exact ⟨rfl, rfl, rfl⟩
  | copied _ step =>
    obtain ⟨_, _, _, _, _, _, _, -, -, -, -, -, -, rfl⟩ := step
    exact ⟨rfl, rfl, rfl⟩
  | halted _ halt =>
    obtain ⟨rfl, -⟩ | ⟨_, _, -, -, _, _, -, -, rfl⟩ := halt <;> exact ⟨rfl, rfl, rfl⟩
  | switched _ step => obtain ⟨_, _, -, -, rfl⟩ := step; exact ⟨rfl, rfl, rfl⟩
  | aliased step => obtain ⟨_, _, -, -, -, rfl⟩ := step; exact ⟨rfl, rfl, rfl⟩
  | linked step =>
    obtain ⟨_, _, _, _, _, _, -, -, -, -, -, rfl⟩ := step
    exact ⟨rfl, rfl, rfl⟩
  | reserved => exact ⟨rfl, rfl, rfl⟩
  | allocated => exact ⟨rfl, rfl, rfl⟩
  | landed => exact ⟨rfl, rfl, rfl⟩
  | stranded => exact ⟨rfl, rfl, rfl⟩
  | entered => exact ⟨rfl, rfl, rfl⟩

/-- An entry `e'` after a change is of an object that had one, has just been found, or was replaced.
    Where the object had an entry `e`, no more than its copy and the note that it has pointers may
    differ. -/
theorem Change.entry_cases (hc : Change s s') (hs : s.Sound) {w : Word} {e' : SourceEntry}
    (he' : s'.catalog.get? w = some e') :
    (∃ e flag target?, s.catalog.get? w = some e ∧
        e' = { e with hasPointers := flag, output? := target? }) ∨
      (∃ x bits?, s.host.Refers x ∧ w = x.pointee ∧ e' = { s.foundEntry x with bits? := bits? }) ∨
        ∃ substitute e, s.catalog.get? substitute = some e ∧ e' = e.standIn w := by
  have hold (he : s.catalog.get? w = some e') : ∃ e flag target?, s.catalog.get? w = some e ∧
      e' = { e with hasPointers := flag, output? := target? } := ⟨e', _, _, he, rfl⟩
  cases hc with
  | seeded _ step => obtain ⟨_, _, _, rfl⟩ := step; exact .inl (hold he')
  | noted _ _ step =>
    obtain ⟨e, flag, he, rfl⟩ := step.entry hs.books he'
    exact .inl ⟨e, flag, _, he, rfl⟩
  | found _ refers step =>
    rcases step.entry he' with he | ⟨hw, bits?, rfl⟩
    · exact .inl (hold he)
    · exact .inr (.inl ⟨_, bits?, refers, hw, rfl⟩)
  | slot step => obtain ⟨_, _, _, -, -, -, rfl⟩ := step; exact .inl (hold he')
  | metered step => obtain ⟨_, -, rfl⟩ := step; exact .inl (hold he')
  | copied _ step =>
    obtain ⟨e, _, _, _, _, _, _, -, he, -, -, -, hget, rfl⟩ := step
    have hnew := (hget w).symm.trans he'
    split at hnew
    · rename_i hw
      subst hw
      obtain rfl := Option.some_inj.1 hnew
      exact .inl ⟨e, _, _, he, rfl⟩
    · exact .inl (hold hnew)
  | halted _ halt =>
    obtain ⟨rfl, -⟩ | ⟨_, _, -, -, _, _, -, hget, rfl⟩ := halt
    · exact .inl (hold he')
    · exact .inl (hold ((hget w).symm.trans he'))
  | switched _ step => obtain ⟨_, _, -, -, rfl⟩ := step; exact .inl (hold he')
  | aliased step =>
    rcases step.get?_new he' with he | ⟨rfl, e, hsub, rfl⟩
    · exact .inl (hold he)
    · exact .inr (.inr ⟨_, e, hsub, rfl⟩)
  | linked step => obtain ⟨_, _, _, _, _, _, -, -, -, -, -, rfl⟩ := step; exact .inl (hold he')
  | reserved | allocated | landed | stranded | entered => exact .inl (hold he')

/-- Changes lead from `s₀` to the session, through sound ones. -/
inductive Develops (s₀ : Session) : Session → Prop where
  | refl (sound : s₀.Sound) : Develops s₀ s₀
  | step {s s' : Session} (before : Develops s₀ s) (change : Change s s') (sound : s'.Sound) :
      Develops s₀ s'

namespace Develops

variable {s₀ : Session}

theorem sound (h : Develops s₀ s) : s.Sound := by
  cases h with
  | refl sound => exact sound
  | step _ _ sound => exact sound

theorem trans (h : Develops s₀ s) (h' : Develops s s') : Develops s₀ s' := by
  induction h' with
  | refl => exact h
  | step _ change sound ih => exact ih.step change sound

/-- An `I` that every change keeps is kept. -/
theorem keeps {I : Session → Prop}
    (hI : ∀ s s', s.Sound → s'.Sound → Change s s' → I s → I s') (h : Develops s₀ s) (h₀ : I s₀) :
    I s := by
  induction h with
  | refl => exact h₀
  | step before change sound ih => exact hI _ _ before.sound sound change ih

theorem frame (h : Develops s₀ s) :
    s.host = s₀.host ∧ s.settings = s₀.settings ∧ s.dependency? = s₀.dependency? :=
  h.keeps (I := fun s => s.host = s₀.host ∧ s.settings = s₀.settings ∧ s.dependency? = s₀.dependency?)
    (fun _ _ _ _ hc ⟨hhost, hsettings, hdependency⟩ =>
      ⟨hc.frame.1.trans hhost, hc.frame.2.1.trans hsettings, hc.frame.2.2.trans hdependency⟩)
    ⟨rfl, rfl, rfl⟩

end Develops

/-- The effect of `m` is a series of changes from `s₀`, whether it answers or fails. -/
abbrev Developing {α : Type} (s₀ : Session) (m : SessionM α) : Prop := Keeps (Develops s₀) m

variable {s₀ : Session}

theorem developing_gather (roots : List Word) : Developing s₀ (gather roots) := by
  intro r h
  let P (s : Session) : Prop := Develops s₀ s ∧ s.stage = .new ∧ s.host = r.session.host
  refine (triple_gather (P := P) (E := fun _ => Develops s₀) roots (fun _ => h) (fun hnew s₁ hseeds => ?_)
    fun hnew s₁ root hseeds => ?_).use rfl ?_ fun _ _ h => h
  · obtain ⟨descriptors, strings, estimate, hs₁⟩ := id hseeds
    have hsound : s₁.Sound := by
      rw [hs₁]
      exact { h.sound with filled := fun o ho => { h.sound.filled o ho with } }
    have hnext : Develops s₀ s₁ := h.step (.seeded hnew hseeds) hsound
    exact ⟨⟨hnext, by rw [hs₁]; exact hnew, by rw [hs₁]⟩, fun _ => hnext⟩
  · have hhost : s₁.host = r.session.host := by obtain ⟨_, _, _, rfl⟩ := hseeds; rfl
    refine (Host.keeps_visit_among (P := P) (A := r.session.host.Refers) (fun e he => ?_)
      fun e he => .root (hhost ▸ he)).conseq (fun _ h => h) (fun _ _ h => h) fun _ _ h => h.1
    rintro r₁ ⟨h₁, hnew₁, hhost₁⟩
    have hout : r₁.session.output? = none := h₁.sound.output_eq_none (by rw [hnew₁]; decide)
    have hnoted : ∀ s₂, NoteStep r₁.session e s₂ → P s₂ := fun s₂ hnote =>
      ⟨h₁.step (.noted hnew₁ (hhost₁ ▸ he) hnote) (hnote.sound h₁.sound hout),
        by rw [hnote.frame]; exact hnew₁, by rw [hnote.frame]; exact hhost₁⟩
    refine (triple_registerEdge r₁.session e).use rfl ?_ ?_
    · rintro v r₂ ⟨s₂, hnote, henter⟩
      obtain ⟨h₂, hnew₂, hhost₂⟩ := hnoted s₂ hnote
      have hout₂ : s₂.output? = none := h₂.sound.output_eq_none (by rw [hnew₂]; decide)
      refine ⟨⟨h₂.step (.found hnew₂ (hhost₂ ▸ he) henter) (henter.sound h₂.sound hout₂),
        by rw [henter.frame]; exact hnew₂, by rw [henter.frame]; exact hhost₂⟩, fun _ held hheld x hx => ?_⟩
      exact .held (hhost ▸ hheld) hx
    · rintro f r₂ (⟨hsame, -⟩ | ⟨hnote, -⟩)
      · rw [hsame]
        exact ⟨h₁, hnew₁, hhost₁⟩
      · exact hnoted _ hnote
  · rintro _ r' ⟨hnew, s₁, ⟨h₁, hnew₁, -⟩, hr'⟩
    have hnone := h₁.sound.output_eq_none (by rw [hnew₁]; decide)
    rw [hr']
    refine h₁.step (.entered (by rw [hnew₁]; rfl)) ⟨h₁.sound.settings, h₁.sound.dependency, h₁.sound.books,
      fun _ => ⟨Nat.le_refl 1, (h₁.sound.bare hnone).2⟩, fun o ho => ?_⟩
    exact nomatch hnone.symm.trans ho

theorem developing_reserveBuffer (a : Advisories) : Developing s₀ (reserveBuffer a) := by
  intro r h
  refine (triple_reserveBuffer h.sound.settings a).use rfl ?_ fun _ r' h' => by rw [h']; exact h
  rintro _ r' ⟨hstage, o, hfresh, hr'⟩
  rw [hr']
  exact h.step (.reserved hstage hfresh) (hfresh.sound h.sound hstage)

theorem developing_allocateOther (n : Nat) : Developing s₀ (allocateOther n) := by
  intro r h
  refine ((keeps_allocateOther n).and (triple_allocateOther h.sound.arenas n)).use ⟨h.sound, rfl⟩ ?_
    fun _ r' h' => by rw [h'.2.1]; exact h
  rintro _ r' ⟨hs, -, o, t, stats, ho, -, rfl, -, hhigh, hdvd, hr'⟩
  rw [hr'] at hs ⊢
  exact h.step (.allocated ho hhigh hdvd) hs

theorem developing_slotting {slot : Addr .buffer} {m : SessionM Unit} (hm : ∀ s, Slotting slot s m) :
    Developing s₀ m := by
  intro r h
  refine (hm r.session).use rfl (fun _ r' h' => ?_) fun _ r' h' => by rw [h']; exact h
  obtain ⟨o, o', n, ho, -, hchange, hr'⟩ := id h'
  exact h.step (.slot h') (Touches.sound (.inr ⟨o, o', ho, hchange.room, hr'⟩) h.sound)

theorem developing_verifyEstimate (estimate : Nat) (label : String) :
    Developing s₀ (verifyEstimate estimate label) := fun _ h =>
  (triple_verifyEstimate estimate label).use rfl
    (fun _ _ h' => h.step (.metered h') (h'.touches.sound h.sound)) fun _ r' h' => by rw [h'.1]; exact h

/-- Copying the next object `w` of a region is a change. -/
theorem developing_copyObject {kind : RegionKind} {stage : Stage} {w : Word} {rest : List Word}
    (hcopying : Copying kind stage (w :: rest) s) (h : Develops s₀ s) :
    Triple (· = s) (copyObject tables w) (fun _ s' => Copying kind stage rest s' → Develops s₀ s')
      (fun _ => Develops s₀) := by
  have hcopying' : Copying kind s.stage (w :: rest) s := hcopying.stage ▸ hcopying
  refine ((triple_copyObject h.sound w).and (triple_copyObject_place h.sound w)).conseq
    (fun _ hs => ⟨hs, hs⟩) ?_ ?_
  · rintro _ s' ⟨hstep, hplace⟩ hnext
    exact h.step (.copied hcopying' hstep hplace) hnext.sound
  · rintro f s' ⟨hhalt, hplace⟩
    exact h.step (.halted hcopying' hhalt hplace) (hhalt.sound h.sound)

theorem developing_copyMutable : Developing s₀ (copyMutable tables) := by
  refine Keeps.ofStage ((triple_copyMutable_each (C := fun _ => Develops s₀) (F := fun _ => Develops s₀)
    fun _ _ _ => developing_copyObject).conseq (fun _ hs => ⟨hs.1.sound, hs.2, hs.1⟩) ?_ fun _ _ hs => hs.2.2)
  rintro _ s ⟨s₁, hstage, h, rfl, hs⟩
  exact h.step (.entered (by rw [hstage]; rfl)) hs

theorem developing_copyReadOnly : Developing s₀ (copyReadOnly tables) := by
  refine Keeps.ofStage ((triple_copyReadOnly_each (B := Develops s₀) (C := fun _ => Develops s₀)
    (F := fun _ => Develops s₀) (fun _ _ h _ => h)
    (fun _ _ hs hstage h hstep => h.step (.switched hstage hstep) (hstep.copying hs hstage).sound)
    (fun _ _ _ => developing_copyObject)
    (fun _ _ _ _ hsettling _ _ hstep => hsettling.2.2.2.2.2.step (.aliased hstep)
      (hstep.sound hsettling.1 hsettling.2.2.1))
    (fun _ _ h hmeter => h.step (.metered hmeter) (hmeter.touches.sound h.sound)) fun _ _ h _ => h).conseq
    (fun _ hs => ⟨hs.1.sound, hs.2, hs.1⟩) ?_ fun _ _ hs => hs.2.2)
  rintro _ s ⟨s₁, hstage, h, rfl, hs⟩
  exact h.step (.entered (by rw [hstage]; rfl)) hs

theorem developing_recordReplaced (former substitute : Word) :
    Developing s₀ (recordReplaced former substitute) := by
  intro r h
  refine ((keeps_recordReplaced former substitute).and
    (triple_recordReplaced r.session former substitute)).use ⟨h.sound, rfl⟩
    (fun _ _ h' => h.step (.aliased h'.2.2) h'.1) fun _ r' h' => by rw [h'.2]; exact h

theorem developing_wire : Developing s₀ wire := by
  refine Keeps.ofStage ((triple_wire_stage (C := fun s => Develops s₀ s ∧ s.stage = .readOnlyCopied)
    fun s s' l w _ hC hstep => ⟨hC.1.step (.linked hstep) (hstep.touches.sound hC.1.sound),
      hstep.touches.stage.trans hC.2⟩).conseq (fun _ hs => ⟨hs.1.sound, hs.2, hs⟩) ?_ fun _ _ hs => hs.2.2.1)
  rintro _ s ⟨s₁, ⟨h, hstage⟩, rfl, hs⟩
  exact h.step (.entered (by rw [hstage]; rfl)) hs

theorem developing_relocate : Developing s₀ relocate := by
  refine Keeps.ofStage (t := .wired) fun r hr => ?_
  obtain ⟨h, hstage⟩ := hr
  obtain ⟨o, ho⟩ := Sound.output_of_rank h.sound (by rw [hstage]; decide)
  refine (keeps_relocate.and (triple_relocate_halted h.sound ho hstage)).use ⟨h.sound, rfl⟩ ?_ ?_
  · rintro _ r' ⟨hs, o', hland, hr'⟩
    rw [hr'] at hs ⊢
    exact h.step (.landed hstage ho hland) hs
  · rintro _ r' ⟨hs, i, o', hhalt, -, hr'⟩
    rw [hr'] at hs ⊢
    exact h.step (.stranded hstage ho hhalt) hs

end SessionM

open SessionM

namespace Call

/-- Every call is a series of changes. -/
theorem developing_run {s₀ : Session} : ∀ c : Call, Developing s₀ c.run
  | gather roots => developing_gather roots
  | reserveBuffer advisories => developing_reserveBuffer advisories
  | allocateOther bytes => (developing_allocateOther bytes).bind fun _ _ h => h
  | writeWord slot w => developing_slotting fun _ => slotting_writeWord slot w
  | verifyEstimate estimate label => developing_verifyEstimate estimate label
  | copyMutable _ => developing_copyMutable
  | copyReadOnly _ => developing_copyReadOnly
  | recordReplaced former substitute => developing_recordReplaced former substitute
  | markPointer slot => developing_slotting fun _ => slotting_markPointer slot
  | setPointer slot value => developing_slotting fun _ => slotting_setPointer slot value
  | clearPointer slot => developing_slotting fun _ => slotting_clearPointer slot
  | writePointer slot source? => developing_slotting fun _ => slotting_writePointer slot source?
  | wire => developing_wire
  | relocate => developing_relocate

theorem develops_after (c : Call) {s : Session} (h : s.Sound) : Develops s (c.after s) :=
  after_of_keeps c.developing_run (.refl h)

end Call

namespace Session

/-- Any calls are a series of changes. -/
theorem Sound.develops {s : Session} (h : s.Sound) : ∀ calls : List Call, Develops s (s.afterCalls calls)
  | [] => .refl h
  | c :: calls => (c.develops_after h).trans ((c.sound_after h).develops calls)

end Session

end SnapshotArchive
