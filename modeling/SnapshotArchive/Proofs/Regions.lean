import Mathlib.Tactic.Common
import SnapshotArchive.Proofs.Soundness

/-!
Copying whole regions. The objects of a region are copied in the order of its list, so each step copies
the first object that was not copied yet; a list that was begun before is refused at its first object.
Replaced objects are entered after the last copy.
-/

namespace SnapshotArchive

namespace SessionM

open Session

variable {tables : TableProvider}

/-- The object at `w` is copied. -/
def CopyStep (tables : TableProvider) (w : Word) (s s' : Session) : Prop :=
  ∃ e o o' offset target catalog stats, s.output? = some o ∧ s.catalog.get? w = some e ∧
    e.isCopied = true ∧ e.output? = none ∧ CopyDone tables s.host e o o' offset target ∧
    (∀ v, catalog.get? v =
      if w = v then some { e with output? := some target } else s.catalog.get? v) ∧
    s' = { s with output? := some o', catalog := catalog, stats := stats }

/-- The object at `w` is not copied, for `f`; bytes may be taken all the same. -/
def CopyHalt (tables : TableProvider) (w : Word) (s : Session) (f : Failure) (s' : Session) : Prop :=
  (s' = s ∧ f.isShortage = false) ∨
    ∃ e o, s.catalog.get? w = some e ∧ s.output? = some o ∧ CopyFailed tables e s o f s'

theorem triple_copyObject {s : Session} (h : s.Sound) (w : Word) :
    Triple (· = s) (copyObject tables w) (fun _ => CopyStep tables w s)
      (fun f => CopyHalt tables w s f) := by
  rintro r rfl
  unfold copyObject
  simp only [wp_bind, wp_session]
  cases he : r.session.catalog.get? w with
  | none => exact Or.inl ⟨rfl, rfl⟩
  | some e =>
    have hsource : e.source = w := h.books.keyed w e he
    cases ho : r.session.output? with
    | none =>
      unfold copyEntry
      simp only [wp_bind, wp_openOutput, ho]
      exact Or.inl ⟨rfl, rfl⟩
    | some o =>
      by_cases hopen : r.session.stage.before .relocated = true
      · refine (triple_copyEntry ho hopen (h.filled o ho).arena (h.filled o ho).length tables e).use rfl
          ?_ fun _ _ h' => Or.inr ⟨e, o, he, ho, h'⟩
        rintro _ r' ⟨o', offset, target, catalog, stats, hdone, hplace, hr'⟩
        obtain ⟨x, hx, hcopied, hfresh, hget⟩ := place_eq_ok hplace
        obtain rfl : e = x := by
          rw [hsource, he] at hx
          exact Option.some_inj.1 hx
        exact ⟨e, o, o', offset, target, catalog, stats, ho, he, hcopied, hfresh, hdone,
          by rw [← hsource]; exact hget, hr'⟩
      · unfold copyEntry
        simp only [wp_bind, wp_openOutput, ho, hopen]
        exact Or.inl ⟨rfl, rfl⟩

/-- The region `kind` is being copied: its objects are copied up to `rest`. -/
structure Copying (kind : RegionKind) (stage : Stage) (rest : List Word) (s : Session) : Prop where
  sound : s.Sound
  stage : s.stage = stage
  current : ∃ o, s.output? = some o ∧ o.arena.current = kind
  done : ∃ done, s.books.sources kind = done ++ rest ∧ ∀ w ∈ done, s.catalog.Placed w

/-- A copy of `w` that stops leaves a sound session. -/
theorem CopyHalt.sound {s s' : Session} {w : Word} {f : Failure} (hhalt : CopyHalt tables w s f s')
    (h : s.Sound) : s'.Sound := by
  rcases hhalt with ⟨rfl, -⟩ | ⟨e, o, -, ho, o', catalog, hstop, hget, rfl⟩
  · exact h
  · have hf := (h.filled o ho).grows hstop.grows
    have hsources : ∀ kind, Books.sources ⟨catalog, s.mutableList, s.readOnlyList, s.replaced⟩ kind =
        s.books.sources kind := fun kind => by cases kind <;> rfl
    have hplaced : ∀ w, catalog.Placed w ↔ s.catalog.Placed w := fun w => by
      unfold Catalog.Placed
      rw [hget]
    exact
      { settings := h.settings
        dependency := h.dependency
        books := h.books.congr hsources hget
        bare := nofun
        filled := fun o'' ho'' => by
          cases ho''
          exact { hf with
            layout := hf.layout.changeOthers hsources (fun _ w _ => hget w) fun w e target he =>
              hf.layout.inside w e target ((hget w).symm.trans he)
            copied := fun kind hrank w hw => (hplaced w).2 (hf.copied kind hrank w (hsources kind ▸ hw)) } }

theorem CopyHalt.stage {s s' : Session} {w : Word} {f : Failure} (hhalt : CopyHalt tables w s f s') :
    s'.stage = s.stage := by
  rcases hhalt with ⟨rfl, -⟩ | ⟨_, _, -, -, _, _, -, -, rfl⟩ <;> rfl

/-- A copy of the next object `w` leads on. -/
theorem CopyStep.copying {s s' : Session} {w : Word} {kind : RegionKind} {stage : Stage}
    {rest : List Word} (hstep : CopyStep tables w s s') (h : Copying kind stage (w :: rest) s) :
    Copying kind stage rest s' := by
  obtain ⟨e, o, o', offset, target, catalog, stats, ho, he, hcopied, hfresh, hdone, hget, rfl⟩ := hstep
  obtain ⟨done, hsplit, hplaced⟩ := h.done
  have hs := h.sound
  have hf := hs.filled o ho
  have hmem : w ∈ s.books.sources kind := by rw [hsplit]; simp
  obtain ⟨x, hx, -, -, rfl⟩ := hs.books.listed kind w hmem
  obtain rfl : e = x := Option.some_inj.1 (he.symm.trans hx)
  obtain rfl : e.source = w := hs.books.keyed w e he
  obtain ⟨t, hlow, hhigh, hdvd, harena⟩ := hdone.grows.arena
  have hcurrent : o.arena.current = .ofReadOnly e.readOnly := by
    obtain ⟨o₁, ho₁, hc⟩ := h.current
    rw [ho] at ho₁
    cases ho₁
    exact hc
  have hnot : ¬s.catalog.Placed e.source := by
    rintro ⟨y, hy, hout⟩
    obtain rfl : e = y := Option.some_inj.1 (he.symm.trans hy)
    rw [hfresh] at hout
    cases hout
  -- copies are made in list order, so nothing after the object has a copy yet
  have hrest : ∀ v ∈ e.source :: rest, ¬s.catalog.Placed v := by
    intro v hv
    rcases List.mem_cons.1 hv with rfl | hv
    · exact hnot
    · have hpairs := hf.layout.inOrder (.ofReadOnly e.readOnly)
      rw [hsplit] at hpairs
      exact fun hp => hnot ((List.pairwise_cons.1 (List.pairwise_append.1 hpairs).2.1).1 v hv hp)
  let b' : Books := ⟨catalog, s.mutableList, s.readOnlyList, s.replaced⟩
  have hsources : ∀ k, b'.sources k = s.books.sources k := fun k => by cases k <;> rfl
  have hplace : Layout.Copied s.books b' e target := ⟨hsources, hget⟩
  have hmono : ∀ v, s.catalog.Placed v → catalog.Placed v := fun v hv =>
    (Layout.placed_of_copied hplace).2 (Or.inr hv)
  have hlayout : Layout b' o'.buffer.bottom o'.arena := by
    rw [harena, hdone.grows.bottom]
    have htop := hdone.high
    rw [harena, Arena.top_advance] at htop
    exact hf.layout.place hs.books hplace hcurrent he hsplit hplaced hrest hdone.place hdone.aligned
      hdone.low htop hf.arena
  have hkept : b'.Kept := hs.books.revise { e with output? := some target } he hsources
    hget rfl rfl rfl fun _ => hcopied
  refine ⟨⟨hs.settings, hs.dependency, hkept, nofun, ?_⟩, h.stage, ⟨o', rfl, ?_⟩, done ++ [e.source],
    ?_, ?_⟩
  · intro o₁ ho₁
    cases ho₁
    exact { hf.grows hdone.grows with
      layout := hlayout
      copied := fun k hrank v hv => hmono v (hf.copied k hrank v (hsources k ▸ hv)) }
  · rw [harena, Arena.current_advance]
    exact hcurrent
  · rw [List.append_assoc]
    exact (hsources _).trans hsplit
  · intro v hv
    rcases List.mem_append.1 hv with hv | hv
    · exact hmono v (hplaced v hv)
    · exact (Layout.placed_of_copied hplace).2 (Or.inl (List.mem_singleton.1 hv).symm)

/-- Copying the region `kind`: what `C` says while some objects are left holds in the end of none,
    and a copy that fails leaves what `F` says. -/
theorem triple_copyRegion_each {kind : RegionKind} {stage : Stage} {C : List Word → Session → Prop}
    {F : Failure → Session → Prop}
    (hobject : ∀ s w rest, Copying kind stage (w :: rest) s → C (w :: rest) s →
      Triple (· = s) (copyObject tables w) (fun _ s' => Copying kind stage rest s' → C rest s') F) :
    Triple (fun s => Copying kind stage (s.books.sources kind) s ∧ C (s.books.sources kind) s)
      (copyRegion kind tables) (fun _ s => Copying kind stage [] s ∧ C [] s)
      (fun f s => s.Sound ∧ s.stage = stage ∧ F f s) := by
  rintro r ⟨hcopying, hC⟩
  unfold copyRegion
  simp only [wp_bind, wp_session]
  rw [sources_books] at hcopying hC
  refine (Triple.forM (I := fun rest s => Copying kind stage rest s ∧ C rest s)
    (E := fun f s => s.Sound ∧ s.stage = stage ∧ F f s) (fun w rest => ?_) _).use ⟨hcopying, hC⟩
    (fun _ _ h => h) fun _ _ h => h
  rintro r' ⟨hcopying', hC'⟩
  refine ((triple_copyObject hcopying'.sound w).and (hobject _ w rest hcopying' hC')).use ⟨rfl, rfl⟩
    (fun _ r₂ h₂ => ?_) fun _ r₂ h₂ => ?_
  · have hnext := h₂.1.copying hcopying'
    exact ⟨hnext, h₂.2 hnext⟩
  · exact ⟨h₂.1.sound hcopying'.sound, h₂.1.stage.trans hcopying'.stage, h₂.2⟩

/-- What each copy and each halt establishes is what copying one object does. -/
theorem triple_copyObject_each {kind : RegionKind} {stage : Stage} {C : List Word → Session → Prop}
    {F : Failure → Session → Prop}
    (hstep : ∀ s s' w rest, Copying kind stage (w :: rest) s → C (w :: rest) s → CopyStep tables w s s' →
      Copying kind stage rest s' → C rest s')
    (hhalt : ∀ s s' f w rest, Copying kind stage (w :: rest) s → C (w :: rest) s →
      CopyHalt tables w s f s' → F f s') {s : Session} {w : Word} {rest : List Word}
    (hcopying : Copying kind stage (w :: rest) s) (hC : C (w :: rest) s) :
    Triple (· = s) (copyObject tables w) (fun _ s' => Copying kind stage rest s' → C rest s') F :=
  (triple_copyObject hcopying.sound w).conseq (fun _ hs => hs)
    (fun _ s' h => hstep s s' w rest hcopying hC h) fun f s' h => hhalt s s' f w rest hcopying hC h

/-- All objects of the region `kind` are copied. -/
theorem Copying.placed {kind : RegionKind} {stage : Stage} {s : Session} (h : Copying kind stage [] s) :
    ∀ w ∈ s.books.sources kind, s.catalog.Placed w := by
  obtain ⟨done, hsplit, hplaced⟩ := h.done
  rw [List.append_nil] at hsplit
  rw [hsplit]
  exact hplaced

theorem Sound.copying {s : Session} {o : Output} {kind : RegionKind} (h : s.Sound)
    (ho : s.output? = some o) (hcurrent : o.arena.current = kind) :
    Copying kind s.stage (s.books.sources kind) s :=
  ⟨h, rfl, ⟨o, ho, hcurrent⟩, [], rfl, nofun⟩

theorem Sound.output_of_rank {s : Session} (h : s.Sound) (hrank : 2 ≤ s.stage.rank) :
    ∃ o, s.output? = some o := by
  refine Option.ne_none_iff_exists'.1 fun hnone => ?_
  have := (h.bare hnone).1
  omega

/-- Copying the mutable objects leads on once all of them are copied, with none left of `C`. -/
theorem triple_copyMutable_each {C : List Word → Session → Prop} {F : Failure → Session → Prop}
    (hobject : ∀ s w rest, Copying .mutable .reserved (w :: rest) s → C (w :: rest) s →
      Triple (· = s) (copyObject tables w) (fun _ s' => Copying .mutable .reserved rest s' → C rest s') F) :
    Triple (fun s => s.Sound ∧ s.stage = .reserved ∧ C (s.books.sources .mutable) s) (copyMutable tables)
      (fun _ s => ∃ s₁, s₁.stage = .reserved ∧ C [] s₁ ∧ s = { s₁ with stage := .mutableCopied } ∧ s.Sound)
      (fun f s => s.Sound ∧ s.stage = .reserved ∧ F f s) := by
  rintro r ⟨h, hstage, hC⟩
  unfold copyMutable
  rw [wp_bind, wp_requireStage, if_pos hstage, wp_bind, wp_tell, wp_bind]
  obtain ⟨o, ho⟩ := Sound.output_of_rank h (by rw [hstage]; decide)
  have hcopying := Sound.copying h ho ((h.filled o ho).reserved hstage)
  rw [hstage] at hcopying
  refine (triple_copyRegion_each (C := C) (F := F) hobject).use ⟨hcopying, hC⟩ ?_ fun _ _ h => h
  rintro _ r' ⟨hcopied, hC'⟩
  have hs := hcopied.sound
  refine ⟨r'.session, hcopied.stage, hC', rfl, hs.settings, hs.dependency, hs.books, fun hnone => ?_,
    fun o' ho' => ?_⟩
  · obtain ⟨o₁, ho₁, -⟩ := hcopied.current
    have : r'.session.output? = none := hnone
    rw [ho₁] at this
    cases this
  · have hf := hs.filled o' ho'
    refine { hf with
      stage := show 2 ≤ 3 by decide
      reserved := nofun
      switched := fun hrank => absurd (show 4 ≤ 3 from hrank) (by decide)
      copied := fun kind hrank w hw => ?_ }
    cases kind with
    | mutable => exact hcopied.placed w hw
    | readOnly => exact absurd (show 4 ≤ 3 from hrank) (by decide)

@[inherit_doc triple_copyMutable_each]
theorem triple_copyMutable {C : List Word → Session → Prop} {F : Failure → Session → Prop}
    (hstep : ∀ s s' w rest, Copying .mutable .reserved (w :: rest) s → C (w :: rest) s →
      CopyStep tables w s s' → Copying .mutable .reserved rest s' → C rest s')
    (hhalt : ∀ s s' f w rest, Copying .mutable .reserved (w :: rest) s → C (w :: rest) s →
      CopyHalt tables w s f s' → F f s') :
    Triple (fun s => s.Sound ∧ s.stage = .reserved ∧ C (s.books.sources .mutable) s) (copyMutable tables)
      (fun _ s => ∃ s₁, s₁.stage = .reserved ∧ C [] s₁ ∧ s = { s₁ with stage := .mutableCopied } ∧ s.Sound)
      (fun f s => s.Sound ∧ s.stage = .reserved ∧ F f s) :=
  triple_copyMutable_each fun _ _ _ => triple_copyObject_each hstep hhalt

/-- The session `s'` has a new entry for `former`, which ends up where `substitute` does. -/
def AliasStep (former substitute : Word) (s s' : Session) : Prop :=
  ∃ e outcome, s.catalog.get? substitute = some e ∧ e.resolution? = some outcome ∧
    s.catalog.get? former = none ∧
    s' = { s with catalog := s.catalog.put (e.standIn former) }

theorem addAlias_eq_ok {s : Session} {former substitute : Word} {c : Catalog}
    (h : s.catalog.addAlias former substitute = .ok c) :
    AliasStep former substitute s { s with catalog := c } := by
  rcases s.catalog.addAlias_cases former substitute with
    ⟨-, hadd⟩ | ⟨e, outcome, he, hout, ⟨-, hadd⟩ | ⟨hnew, hadd⟩⟩ <;> cases hadd.symm.trans h
  exact ⟨e, outcome, he, hout, hnew, rfl⟩

theorem addAlias_not_shortage {c : Catalog} {former substitute : Word} {v : Violation}
    (h : c.addAlias former substitute = .error v) : Failure.isShortage v = false := by
  rcases c.addAlias_cases former substitute with
    ⟨-, hadd⟩ | ⟨e, outcome, -, -, ⟨-, hadd⟩ | ⟨-, hadd⟩⟩ <;> cases hadd.symm.trans h <;> rfl

/-- The entry of a replaced object `former` takes no part in the copies. -/
theorem AliasStep.sound {s s' : Session} {former substitute : Word}
    (hstep : AliasStep former substitute s s') (h : s.Sound) (hbare : s.output? ≠ none) : s'.Sound := by
  obtain ⟨e, outcome, he, hout, hnew, rfl⟩ := hstep
  let b' : Books := ⟨s.catalog.put (e.standIn former), s.mutableList, s.readOnlyList, s.replaced⟩
  have hsources : ∀ k, b'.sources k = s.books.sources k := fun k => by cases k <;> rfl
  have hkept : b'.Kept := h.books.enter (e := e.standIn former) hnew hsources
    (fun w => Catalog.get?_put ..) (fun _ => rfl) fun ho => h.books.copied _ e he ho
  have hlisted : ∀ kind, ∀ w ∈ s.books.sources kind, b'.catalog.get? w = s.catalog.get? w := by
    intro kind w hw
    obtain ⟨x, hx, -⟩ := h.books.listed kind w hw
    change (s.catalog.put _).get? w = _
    rw [Catalog.get?_put, if_neg]
    rintro rfl
    have hsome : s.catalog.get? former = some x := hx
    rw [hnew] at hsome
    cases hsome
  refine ⟨h.settings, h.dependency, hkept, fun hnone => absurd hnone hbare, fun o ho => ?_⟩
  have hf := h.filled o ho
  refine { hf with
    layout := hf.layout.changeOthers hsources hlisted fun w x target hx ht => ?_
    copied := fun kind hrank w hw => ?_ }
  · change (s.catalog.put _).get? w = some x at hx
    rw [Catalog.get?_put] at hx
    split at hx
    · cases hx
      exact hf.layout.inside _ e target he ht
    · exact hf.layout.inside w x target hx ht
  · obtain ⟨x, hx, hplaced⟩ := hf.copied kind hrank w (hsources kind ▸ hw)
    exact ⟨x, (hlisted kind w (hsources kind ▸ hw)).trans hx, hplaced⟩

theorem AliasStep.stage {s s' : Session} {former substitute : Word}
    (hstep : AliasStep former substitute s s') : s'.stage = s.stage ∧ s'.output? = s.output? := by
  obtain ⟨_, _, -, -, -, rfl⟩ := hstep
  exact ⟨rfl, rfl⟩

theorem AliasStep.replaced {s s' : Session} {former substitute : Word}
    (hstep : AliasStep former substitute s s') : s'.replaced = s.replaced := by
  obtain ⟨_, _, -, -, -, rfl⟩ := hstep
  rfl

theorem triple_resolveReplaced (s : Session) (former : Word) :
    Triple (· = s) (resolveReplaced former)
      (fun _ s' => ∃ substitute, s.host.substitute? former = some substitute ∧
        AliasStep former substitute s s')
      (fun f s' => s' = s ∧ f.isShortage = false) := by
  rintro r rfl
  unfold resolveReplaced
  simp only [wp_bind, wp_session]
  cases hsub : r.session.host.substitute? former with
  | none => exact ⟨rfl, rfl⟩
  | some substitute =>
    dsimp only
    rw [wp_bind, wp_ofViolation]
    cases hadd : r.session.catalog.addAlias former substitute with
    | error v => exact ⟨rfl, addAlias_not_shortage hadd⟩
    | ok c => exact ⟨substitute, rfl, addAlias_eq_ok hadd⟩

theorem triple_recordReplaced (s : Session) (former substitute : Word) :
    Triple (· = s) (recordReplaced former substitute)
      (fun _ s' => 4 ≤ s.stage.rank ∧ AliasStep former substitute s s') (fun _ s' => s' = s) := by
  rintro r rfl
  unfold recordReplaced
  simp only [wp_bind, wp_session]
  split
  · rfl
  · rename_i hstage
    rw [wp_bind, wp_ofViolation]
    cases hadd : r.session.catalog.addAlias former substitute with
    | error v => rfl
    | ok c =>
      refine ⟨?_, addAlias_eq_ok hadd⟩
      unfold Stage.before at hstage
      rw [Bool.not_eq_true, decide_eq_false_iff_not, Nat.not_lt] at hstage
      exact hstage

/-- The read-only region is the current one from `s'` on. -/
def SwitchStep (s s' : Session) : Prop :=
  ∃ o arena, s.output? = some o ∧ o.arena.startReadOnly = .ok arena ∧
    s' = { s with
      output? := some { o with arena, meter := o.meter.switchRegion o.arena.top arena.top } }

theorem triple_switchRegion (s : Session) :
    Triple (· = s) switchRegion (fun _ => SwitchStep s)
      (fun f s' => s' = s ∧ f.isShortage = false) := by
  rintro r rfl
  unfold switchRegion
  rw [wp_bind, wp_openOutput]
  cases ho : r.session.output? with
  | none => exact ⟨rfl, rfl⟩
  | some o =>
    dsimp only
    split
    · rw [wp_bind, wp_ofViolation]
      cases ha : o.arena.startReadOnly with
      | error v =>
        refine ⟨rfl, ?_⟩
        unfold Arena.startReadOnly at ha
        split at ha <;> cases ha
        rfl
      | ok arena => exact ⟨o, arena, ho, ha, rfl⟩
    · exact ⟨rfl, rfl⟩

theorem SwitchStep.copying {s s' : Session} (hstep : SwitchStep s s') (h : s.Sound)
    (hstage : s.stage = .mutableCopied) :
    Copying .readOnly .mutableCopied (s'.books.sources .readOnly) s' := by
  obtain ⟨o, arena, ho, harena, rfl⟩ := hstep
  have hf := h.filled o ho
  obtain ⟨-, hcurrent, hsound, hlength, -⟩ := Arena.startReadOnly_eq_ok hf.arena harena
  have hfilled : s.Filled { o with arena, meter := o.meter.switchRegion o.arena.top arena.top } :=
    { stage := hf.stage
      arena := hsound
      length := hlength.trans hf.length
      bottom := hf.bottom
      room := hf.room
      reserved := fun hr => by rw [hstage] at hr; cases hr
      switched := fun _ => hcurrent
      layout := hf.layout.startReadOnly hf.arena harena
      copied := hf.copied }
  rw [← hstage]
  exact Sound.copying (h.withOutput hfilled) rfl hcurrent

/-- All read-only objects of `s` are copied; what is left to do keeps `C`. -/
def Settling (C : Session → Prop) (s : Session) : Prop :=
  s.Sound ∧ s.stage = .mutableCopied ∧ s.output? ≠ none ∧
    (∀ o, s.output? = some o → o.arena.current = .readOnly) ∧
    (∀ w ∈ s.books.sources .readOnly, s.catalog.Placed w) ∧ C s

variable {C : Session → Prop}

theorem Copying.settling {s : Session} (h : Copying .readOnly .mutableCopied [] s) (hC : C s) :
    Settling C s := by
  obtain ⟨o, ho, hcurrent⟩ := h.current
  refine ⟨h.sound, h.stage, by rw [ho]; nofun, fun o' ho' => ?_, h.placed, hC⟩
  rw [ho] at ho'
  cases ho'
  exact hcurrent

theorem Settling.alias {s s' : Session} {former substitute : Word} (h : Settling C s)
    (hstep : AliasStep former substitute s s') (hC : C s') : Settling C s' := by
  obtain ⟨hs, hstage, hout, hcurrent, hplaced, -⟩ := h
  have hs' := hstep.sound hs hout
  obtain ⟨e, outcome, he, hr, hnew, rfl⟩ := hstep
  refine ⟨hs', hstage, hout, hcurrent, fun w hw => ?_, hC⟩
  obtain ⟨x, hx, ho⟩ := hplaced w hw
  refine ⟨x, ?_, ho⟩
  change (s.catalog.put _).get? w = _
  rw [Catalog.get?_put, if_neg]
  · exact hx
  · rintro rfl
    have hsome : s.catalog.get? former = some x := hx
    rw [hnew] at hsome
    cases hsome

theorem Settling.metered {s s' : Session} (h : Settling C s) (hmeter : Metered s s') (hC : C s') :
    Settling C s' := by
  obtain ⟨hs, hstage, hout, hcurrent, hplaced, -⟩ := h
  have hs' := hmeter.touches.sound hs
  obtain ⟨o, ho, rfl⟩ := hmeter
  exact ⟨hs', hstage, nofun, fun o' ho' => by cases ho'; exact hcurrent o ho, hplaced, hC⟩

/-- With all read-only objects copied the session may go on. -/
theorem Settling.enter {s : Session} (h : Settling C s) :
    Session.Sound { s with stage := .readOnlyCopied } := by
  obtain ⟨hs, hstage, hout, hcurrent, hplaced, -⟩ := h
  refine ⟨hs.settings, hs.dependency, hs.books, fun hnone => absurd hnone hout, fun o ho => ?_⟩
  have hf := hs.filled o ho
  refine { hf with
    stage := show 2 ≤ 4 by decide
    reserved := nofun
    switched := fun _ => hcurrent o ho
    copied := fun kind _ w hw => ?_ }
  cases kind with
  | mutable => exact hf.copied .mutable (by rw [hstage]; decide) w hw
  | readOnly => exact hplaced w hw

/-- Copies the read-only objects with `tables` and settles the replaced ones; the estimate is not
    checked yet. -/
def copyUnchecked (tables : TableProvider) : SessionM Unit := do
  requireStage .mutableCopied "dump_read_only"
  tell (.copying .readOnly)
  switchRegion
  copyRegion .readOnly tables
  (← session).replaced.toList.forM resolveReplaced

/-- Checks the estimate once the read-only objects are copied, and goes on. -/
def finishReadOnly : SessionM Unit := do
  let o ← output "dump_read_only"
  verifyEstimate (satAdd (← session).estimate.objectBytes o.advisories.other) "Objects"
  enter .readOnlyCopied

theorem copyReadOnly_eq (tables : TableProvider) :
    copyReadOnly tables = copyUnchecked tables >>= fun _ => finishReadOnly := by
  unfold copyReadOnly copyUnchecked finishReadOnly
  simp only [bind_assoc]

/-- All read-only objects are copied and the replaced ones settled before the check. -/
theorem triple_copyUnchecked_each {B : Session → Prop} {C : List Word → Session → Prop}
    {F : Failure → Session → Prop}
    (hrefuse : ∀ s f, B s → f.isShortage = false → F f s)
    (hswitch : ∀ s s', s.Sound → s.stage = .mutableCopied → B s → SwitchStep s s' →
      C (s'.books.sources .readOnly) s')
    (hobject : ∀ s w rest, Copying .readOnly .mutableCopied (w :: rest) s → C (w :: rest) s →
      Triple (· = s) (copyObject tables w)
        (fun _ s' => Copying .readOnly .mutableCopied rest s' → C rest s') F)
    (halias : ∀ s s' former substitute, Settling (C []) s → former ∈ s.replaced →
      s.host.substitute? former = some substitute → AliasStep former substitute s s' → C [] s')
    (hplain : ∀ s f, C [] s → f.isShortage = false → F f s) :
    Triple (fun s => s.Sound ∧ s.stage = .mutableCopied ∧ B s) (copyUnchecked tables)
      (fun _ => Settling (C [])) (fun f s => s.Sound ∧ s.stage = .mutableCopied ∧ F f s) := by
  rintro r ⟨h, hstage, hB⟩
  unfold copyUnchecked
  rw [wp_bind, wp_requireStage, if_pos hstage, wp_bind, wp_tell, wp_bind]
  refine (triple_switchRegion r.session).use rfl ?_ fun f r' h' => by
    rw [h'.1]
    exact ⟨h, hstage, hrefuse _ f hB h'.2⟩
  intro _ r₁ h₁
  rw [wp_bind]
  refine (triple_copyRegion_each (C := C) (F := F) hobject).use
    ⟨h₁.copying h hstage, hswitch _ _ h hstage hB h₁⟩ ?_ fun _ _ h => h
  rintro _ r₂ ⟨hcopied, hC₂⟩
  rw [wp_bind, wp_session]
  have hloop := fun xs => Triple.forM (f := resolveReplaced)
    (I := fun rest s => Settling (C []) s ∧ ∀ former ∈ rest, former ∈ s.replaced)
    (E := fun f s => s.Sound ∧ s.stage = .mutableCopied ∧ F f s) (fun former rest r' h' => by
      obtain ⟨hsettling, hrest⟩ := h'
      refine (triple_resolveReplaced r'.session former).use rfl ?_ fun f r₂ h₂ => ?_
      · rintro _ r₂ ⟨substitute, hsub, halia⟩
        refine ⟨hsettling.alias halia
          (halias _ _ _ _ hsettling (hrest _ (List.mem_cons_self ..)) hsub halia), fun v hv => ?_⟩
        rw [halia.replaced]
        exact hrest v (List.mem_cons_of_mem _ hv)
      · rw [h₂.1]
        exact ⟨hsettling.1, hsettling.2.1, hplain _ f hsettling.2.2.2.2.2 h₂.2⟩) xs
  exact (hloop _).use ⟨hcopied.settling hC₂, fun _ hv => Array.mem_toList_iff.1 hv⟩ (fun _ _ h => h.1)
    fun _ _ h => h

/-- Copying the read-only objects leads on once all of them are copied and the replaced ones settled. -/
theorem triple_copyReadOnly_each {B : Session → Prop} {C : List Word → Session → Prop}
    {F : Failure → Session → Prop}
    (hrefuse : ∀ s f, B s → f.isShortage = false → F f s)
    (hswitch : ∀ s s', s.Sound → s.stage = .mutableCopied → B s → SwitchStep s s' →
      C (s'.books.sources .readOnly) s')
    (hobject : ∀ s w rest, Copying .readOnly .mutableCopied (w :: rest) s → C (w :: rest) s →
      Triple (· = s) (copyObject tables w)
        (fun _ s' => Copying .readOnly .mutableCopied rest s' → C rest s') F)
    (halias : ∀ s s' former substitute, Settling (C []) s → former ∈ s.replaced →
      s.host.substitute? former = some substitute → AliasStep former substitute s s' → C [] s')
    (hmeter : ∀ s s', C [] s → Metered s s' → C [] s')
    (hfail : ∀ s f, C [] s → (f.isShortage = true → ∃ o, s.output? = some o ∧
      satAdd s.estimate.objectBytes o.advisories.other < o.meter.used o.arena.top) → F f s) :
    Triple (fun s => s.Sound ∧ s.stage = .mutableCopied ∧ B s) (copyReadOnly tables)
      (fun _ s => ∃ s₁, s₁.stage = .mutableCopied ∧ C [] s₁ ∧
        s = { s₁ with stage := .readOnlyCopied } ∧ s.Sound)
      (fun f s => s.Sound ∧ s.stage = .mutableCopied ∧ F f s) := by
  have hplain : ∀ s f, C [] s → f.isShortage = false → F f s := fun s f hs hf =>
    hfail s f hs fun hshort => by rw [hf] at hshort; cases hshort
  intro r hr
  rw [copyReadOnly_eq, wp_bind]
  refine (triple_copyUnchecked_each hrefuse hswitch hobject halias hplain).use hr ?_ fun _ _ h => h
  intro _ r₃ h₃
  unfold finishReadOnly
  simp only [wp_bind, wp_session]
  rw [wp_output]
  obtain ⟨o, ho⟩ := Option.ne_none_iff_exists'.1 h₃.2.2.1
  rw [ho]
  dsimp only
  refine (triple_verifyEstimate _ _).use rfl ?_ fun f r' h' => by
    rw [h'.1]
    refine ⟨h₃.1, h₃.2.1, hfail _ f h₃.2.2.2.2.2 fun hshort => ?_⟩
    obtain ⟨o', ho', hover⟩ := h'.2 hshort
    obtain rfl : o = o' := Option.some_inj.1 (ho.symm.trans ho')
    exact ⟨o, ho, hover⟩
  intro _ r₄ h₄
  have hC₄ := hmeter _ _ h₃.2.2.2.2.2 h₄
  have hsettled := h₃.metered h₄ hC₄
  rw [wp_enter]
  exact ⟨r₄.session, hsettled.2.1, hC₄, rfl, hsettled.enter⟩

@[inherit_doc triple_copyReadOnly_each]
theorem triple_copyReadOnly {B : Session → Prop} {C : List Word → Session → Prop}
    {F : Failure → Session → Prop}
    (hrefuse : ∀ s f, B s → f.isShortage = false → F f s)
    (hswitch : ∀ s s', s.Sound → s.stage = .mutableCopied → B s → SwitchStep s s' →
      C (s'.books.sources .readOnly) s')
    (hstep : ∀ s s' w rest, Copying .readOnly .mutableCopied (w :: rest) s → C (w :: rest) s →
      CopyStep tables w s s' → Copying .readOnly .mutableCopied rest s' → C rest s')
    (hhalt : ∀ s s' f w rest, Copying .readOnly .mutableCopied (w :: rest) s → C (w :: rest) s →
      CopyHalt tables w s f s' → F f s')
    (halias : ∀ s s' former substitute, Settling (C []) s → former ∈ s.replaced →
      s.host.substitute? former = some substitute → AliasStep former substitute s s' → C [] s')
    (hmeter : ∀ s s', C [] s → Metered s s' → C [] s')
    (hfail : ∀ s f, C [] s → (f.isShortage = true → ∃ o, s.output? = some o ∧
      satAdd s.estimate.objectBytes o.advisories.other < o.meter.used o.arena.top) → F f s) :
    Triple (fun s => s.Sound ∧ s.stage = .mutableCopied ∧ B s) (copyReadOnly tables)
      (fun _ s => ∃ s₁, s₁.stage = .mutableCopied ∧ C [] s₁ ∧
        s = { s₁ with stage := .readOnlyCopied } ∧ s.Sound)
      (fun f s => s.Sound ∧ s.stage = .mutableCopied ∧ F f s) :=
  triple_copyReadOnly_each hrefuse hswitch (fun _ _ _ => triple_copyObject_each hstep hhalt) halias hmeter hfail

/-- Copying the mutable objects leads to the next stage, or the session stays at its stage. -/
theorem triple_copyMutable_stage :
    Triple (fun s => s.Sound ∧ s.stage = .reserved) (copyMutable tables)
      (fun _ s => s.Sound ∧ s.stage = .mutableCopied) (fun _ s => s.Sound ∧ s.stage = .reserved) := by
  refine (triple_copyMutable (C := fun _ _ => True) (F := fun _ _ => True)
    (fun _ _ _ _ _ _ _ _ => trivial) fun _ _ _ _ _ _ _ _ => trivial).conseq
    (fun _ hs => ⟨hs.1, hs.2, trivial⟩) ?_ fun _ _ hs => ⟨hs.1, hs.2.1⟩
  rintro _ s ⟨_, -, -, rfl, hs⟩
  exact ⟨hs, rfl⟩

/-- Copying the read-only objects leads to the next stage, or the session stays at its stage. -/
theorem triple_copyReadOnly_stage :
    Triple (fun s => s.Sound ∧ s.stage = .mutableCopied) (copyReadOnly tables)
      (fun _ s => s.Sound ∧ s.stage = .readOnlyCopied)
      (fun _ s => s.Sound ∧ s.stage = .mutableCopied) := by
  refine (triple_copyReadOnly (B := fun _ => True) (C := fun _ _ => True)
    (F := fun _ _ => True) (fun _ _ _ _ => trivial) (fun _ _ _ _ _ _ => trivial)
    (fun _ _ _ _ _ _ _ _ => trivial) (fun _ _ _ _ _ _ _ _ => trivial)
    (fun _ _ _ _ _ _ _ _ => trivial) (fun _ _ _ _ => trivial) fun _ _ _ _ => trivial).conseq
    (fun _ hs => ⟨hs.1, hs.2, trivial⟩) ?_ fun _ _ hs => ⟨hs.1, hs.2.1⟩
  rintro _ s ⟨_, -, -, rfl, hs⟩
  exact ⟨hs, rfl⟩

theorem keeps_copyMutable : Keeps Sound (copyMutable tables) :=
  Keeps.ofStage (triple_copyMutable_stage.conseq (fun _ hs => hs) (fun _ _ hs => hs.1) fun _ _ hs => hs.1)

theorem keeps_copyReadOnly : Keeps Sound (copyReadOnly tables) :=
  Keeps.ofStage (triple_copyReadOnly_stage.conseq (fun _ hs => hs) (fun _ _ hs => hs.1) fun _ _ hs => hs.1)

theorem keeps_recordReplaced (former substitute : Word) :
    Keeps Sound (recordReplaced former substitute) := by
  intro r h
  refine (triple_recordReplaced r.session former substitute).use rfl ?_
    fun _ r' h' => by rw [h']; exact h
  rintro _ r' ⟨hrank, hstep⟩
  exact hstep.sound h fun hnone => by
    have := (h.bare hnone).1
    omega

end SessionM

end SnapshotArchive
