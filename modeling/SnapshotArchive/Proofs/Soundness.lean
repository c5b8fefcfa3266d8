import Mathlib.Tactic.Common
import SnapshotArchive.Proofs.Placement
import SnapshotArchive.Proofs.Reserving
import SnapshotArchive.Session.Build

/-!
Sound sessions. Whatever is called on a session, in any order and on any host, and also where calls
fail: its books agree, its copies lie apart in their regions, and there is room for the archive above
the requested bottom. Every call keeps a session sound.
-/

namespace SnapshotArchive

/-- The rank of the stage at which the objects of a region are all copied. -/
def RegionKind.copiedRank : RegionKind → Nat
  | .mutable => 3
  | .readOnly => 4

namespace Session

/-- The output `o` agrees with the books and the settings of `s`. -/
structure Filled (s : Session) (o : Output) : Prop where
  stage : 2 ≤ s.stage.rank
  arena : o.arena.Sound
  length : o.arena.length = o.buffer.length
  bottom : s.requestedBottom? = some o.requestedBottom.toNat
  room : o.requestedBottom.toNat + o.buffer.length < addressLimit
  reserved : s.stage = .reserved → o.arena.current = .mutable
  switched : 4 ≤ s.stage.rank → o.arena.current = .readOnly
  layout : Layout s.books o.buffer.bottom o.arena
  copied : ∀ kind, kind.copiedRank ≤ s.stage.rank → ∀ w ∈ s.books.sources kind, s.catalog.Placed w

/-- What holds of a session `s` at all times. -/
structure Sound (s : Session) : Prop where
  settings : s.settings.validate = .ok ()
  dependency : ∀ d, s.dependency? = some d →
    d.requested.bottom.word = s.settings.requestedBase ∧ d.requested.length = d.mapped.length
  books : s.books.Kept
  bare : s.output? = none → s.stage.rank ≤ 1 ∧ ∀ w, ¬s.catalog.Placed w
  filled : ∀ o, s.output? = some o → s.Filled o

namespace Filled

variable {s : Session} {o o' : Output}

/-- Contents and marks do not count. -/
theorem sameRoom (h : s.Filled o) (hroom : o.SameRoom o') : s.Filled o' where
  stage := h.stage
  arena := by rw [hroom.arena]; exact h.arena
  length := by rw [hroom.arena, hroom.length]; exact h.length
  bottom := by rw [hroom.requested]; exact h.bottom
  room := by rw [hroom.requested, hroom.length]; exact h.room
  reserved := by rw [hroom.arena]; exact h.reserved
  switched := by rw [hroom.arena]; exact h.switched
  layout := by rw [hroom.arena, hroom.bottom]; exact h.layout
  copied := h.copied

/-- More may be allocated in `o'`. -/
theorem grows (h : s.Filled o) (hgrows : o.Grows o') : s.Filled o' := by
  obtain ⟨t, hlow, hhigh, hdvd, harena⟩ := hgrows.arena
  refine ⟨h.stage, ?_, ?_, ?_, ?_, ?_, ?_, ?_, h.copied⟩
  · rw [harena]
    exact h.arena.advance hlow hhigh hdvd
  · rw [harena, hgrows.length, Arena.length_advance]
    exact h.length
  · rw [hgrows.requested]
    exact h.bottom
  · rw [hgrows.requested, hgrows.length]
    exact h.room
  · rw [harena, Arena.current_advance]
    exact h.reserved
  · rw [harena, Arena.current_advance]
    exact h.switched
  · rw [harena, hgrows.bottom]
    exact h.layout.advance hlow

end Filled

/-- A requested dependency `d` lies at `base` and is as long as the mapped one. -/
theorem plan_eq_ok {base : Word} {mapped : AddrRange .mapped} {d : Dependency}
    (h : Dependency.plan base mapped = .ok d) :
    d.mapped = mapped ∧ d.requested.bottom.word = base ∧ d.requested.length = mapped.length := by
  unfold Dependency.plan AddrRange.ofLength? Addr.add? at h
  split at h
  · rename_i requested hr
    cases h
    obtain ⟨top, htop, hbounds⟩ := Option.bind_eq_some_iff.1 hr
    unfold AddrRange.ofBounds? at hbounds
    split at hbounds
    · cases hbounds
      refine ⟨rfl, rfl, ?_⟩
      have := Addr.toNat_ofNat? htop
      change top.toNat - Addr.toNat (s := .requested) ⟨base⟩ = mapped.length
      omega
    · cases hbounds
  · cases h

/-- A session that has just begun. -/
def fresh (host : Host) (reservations : Reservations) (settings : Settings)
    (dependency? : Option Dependency) : Session where
  host := host
  reservations := reservations
  settings := settings
  dependency? := dependency?
  stage := .new
  catalog := .empty
  mutableList := .empty
  readOnlyList := .empty
  typeDescriptors := []
  internedStrings := []
  replaced := #[]
  estimate := .zero
  output? := none
  stats := .zero

/-- A session `s` begins without output and books, on top of the dependency as planned. -/
theorem begin_eq_ok {host : Host} {reservations : Reservations} {settings : Settings}
    {mapped? : Option (AddrRange .mapped)} {alive : Bool} {s : Session}
    (h : begin host reservations settings mapped? alive = .ok s) :
    settings.validate = .ok () ∧ ∃ d?, mapped?.mapM (Dependency.plan settings.requestedBase) = .ok d? ∧
      s = fresh host reservations settings d? := by
  unfold begin at h
  split at h
  · cases h
  · rename_i hvalid
    cases alive with
    | true => cases h
    | false =>
      cases hd : mapped?.mapM (Dependency.plan settings.requestedBase) with
      | error e => rw [hd] at h; cases h
      | ok d =>
        rw [hd] at h
        cases h
        exact ⟨hvalid, d, rfl, rfl⟩

theorem begin_fresh {host : Host} {reservations : Reservations} {settings : Settings}
    (h : settings.validate = .ok ()) :
    begin host reservations settings none false = .ok (fresh host reservations settings none) := by
  unfold begin
  rw [h]
  rfl

/-- The dependency of a fresh session is where `mapped?` says. -/
theorem mapM_plan_eq_ok {base : Word} {mapped? : Option (AddrRange .mapped)} {d? : Option Dependency}
    (h : mapped?.mapM (Dependency.plan base) = .ok d?) :
    d?.map (·.mapped) = mapped? ∧ ∀ d, d? = some d →
      d.requested.bottom.word = base ∧ d.requested.length = d.mapped.length := by
  cases mapped? with
  | none => cases h; exact ⟨rfl, nofun⟩
  | some mapped =>
    cases hplan : Dependency.plan base mapped with
    | error e =>
      have : (Except.error e : Except BuildError (Option Dependency)) = .ok d? := by
        rw [← h, Option.mapM_some, hplan]
        rfl
      cases this
    | ok d =>
      have : (Except.ok (some d) : Except BuildError (Option Dependency)) = .ok d? := by
        rw [← h, Option.mapM_some, hplan]
        rfl
      cases this
      obtain ⟨hm, hbottom, hlength⟩ := plan_eq_ok hplan
      refine ⟨by rw [Option.map_some, hm], fun d' hd' => ?_⟩
      cases hd'
      exact ⟨hbottom, by rw [hlength, hm]⟩

theorem sound_begin {host : Host} {reservations : Reservations} {settings : Settings}
    {mapped? : Option (AddrRange .mapped)} {alive : Bool} {s : Session}
    (h : begin host reservations settings mapped? alive = .ok s) : s.Sound := by
  obtain ⟨hvalid, d?, hd, rfl⟩ := begin_eq_ok h
  refine ⟨hvalid, (mapM_plan_eq_ok hd).2, Books.kept_empty, fun _ => ⟨Nat.zero_le 1, ?_⟩, nofun⟩
  rintro w ⟨e, he, -⟩
  change Catalog.empty.get? w = some e at he
  rw [Catalog.get?_empty] at he
  cases he

namespace Sound

variable {s s' : Session} {o o' : Output}

/-- Books `b` that agree and hold no copies, before the buffer is reserved. -/
theorem withBooks (h : s.Sound) (hout : s.output? = none) {b : Books} (hkept : b.Kept)
    (hplaced : ∀ w, ¬b.catalog.Placed w) : (s.withBooks b).Sound where
  settings := h.settings
  dependency := h.dependency
  books := hkept
  bare _ := ⟨(h.bare hout).1, hplaced⟩
  filled o ho := by
    have : s.output? = some o := ho
    rw [hout] at this
    cases this

/-- The output changes to `o`, and what else is not looked at here. -/
theorem withOutput (h : s.Sound) (ho : s.Filled o) {stats : Stats} :
    ({ s with output? := some o, stats := stats }).Sound where
  settings := h.settings
  dependency := h.dependency
  books := h.books
  bare := nofun
  filled o' ho' := by
    cases ho'
    exact ⟨ho.stage, ho.arena, ho.length, ho.bottom, ho.room, ho.reserved, ho.switched, ho.layout,
      ho.copied⟩

theorem arenas (h : s.Sound) : ∀ o, s.output? = some o → o.arena.Sound ∧ o.arena.length = o.buffer.length :=
  fun o ho => ⟨(h.filled o ho).arena, (h.filled o ho).length⟩

theorem output_eq_none (h : s.Sound) (hstage : s.stage.rank ≤ 1) : s.output? = none := by
  cases ho : s.output? with
  | none => rfl
  | some o =>
    have := (h.filled o ho).stage
    omega

end Sound

end Session

namespace SessionM

open Session

theorem NoteStep.sound {s s' : Session} {e : Edge} (hstep : NoteStep s e s') (h : s.Sound)
    (hout : s.output? = none) : s'.Sound := by
  rw [hstep.frame]
  refine h.withBooks hout (hstep.kept h.books) ?_
  rintro w ⟨x, hx, ho⟩
  obtain ⟨y, flag, hy, rfl⟩ := hstep.entry h.books hx
  exact (h.bare hout).2 w ⟨y, hy, ho⟩

theorem EnterStep.sound {s s' : Session} {e : Edge} {v : Visit} (hstep : EnterStep s e v s')
    (h : s.Sound) (hout : s.output? = none) : s'.Sound := by
  rw [hstep.frame]
  refine h.withBooks hout (hstep.kept h.books) ?_
  rintro w ⟨x, hx, ho⟩
  rcases hstep.entry hx with hold | ⟨-, bits?, rfl⟩
  · exact (h.bare hout).2 w ⟨x, hold, ho⟩
  · cases ho

/-- Gathering from `roots` keeps a session sound, whether it succeeds or fails. -/
theorem keeps_gather (roots : List Word) : Keeps Sound (gather roots) := by
  intro r h
  -- while objects are found the stage stays `new`, so there is no output to speak of
  let P (s' : Session) : Prop := s'.Sound ∧ s'.stage = .new
  have hout : ∀ s', P s' → s'.output? = none := fun s' hs' =>
    hs'.1.output_eq_none (by rw [hs'.2]; decide)
  refine (triple_gather (P := P) (E := fun _ => Sound) roots (fun _ => h) ?_ ?_).use rfl ?_
    fun _ _ h => h
  · rintro hnew s' ⟨descriptors, strings, estimate, rfl⟩
    have hsound : Session.Sound { r.session with
        typeDescriptors := descriptors, internedStrings := strings, estimate := estimate } :=
      { settings := h.settings, dependency := h.dependency, books := h.books, bare := h.bare
        filled := fun o ho => { h.filled o ho with } }
    exact ⟨⟨hsound, hnew⟩, fun _ => hsound⟩
  · intro hnew s₁ root _
    refine (Host.keeps_visit (P := P) (fun e r' h' => ?_) root).conseq (fun _ h => h) (fun _ _ h => h)
      fun _ _ h => h.1
    have hnoted : ∀ s₂, NoteStep r'.session e s₂ → P s₂ := fun s₂ hnote =>
      ⟨hnote.sound h'.1 (hout _ h'), by rw [hnote.frame]; exact h'.2⟩
    refine (triple_registerEdge r'.session e).use rfl ?_ ?_
    · rintro v r₂ ⟨s₂, hnote, henter⟩
      have h₂ := hnoted s₂ hnote
      exact ⟨henter.sound h₂.1 (hout _ h₂), by rw [henter.frame]; exact h₂.2⟩
    · rintro f r₂ (⟨hsame, -⟩ | ⟨hnote, -⟩)
      · rw [hsame]
        exact h'
      · exact hnoted _ hnote
  · rintro _ r' ⟨-, s₁, hs₁, hr'⟩
    rw [hr']
    have hnone := hout _ hs₁
    exact { settings := hs₁.1.settings, dependency := hs₁.1.dependency, books := hs₁.1.books
            bare := fun _ => ⟨Nat.le_refl 1, (hs₁.1.bare hnone).2⟩
            filled := fun o ho => by
              have : s₁.output? = some o := ho
              rw [hnone] at this
              cases this }

theorem Touches.sound {s s' : Session} (htouch : Touches s s') (h : s.Sound) : s'.Sound := by
  rcases htouch with rfl | ⟨o, o', ho, hroom, rfl⟩
  · exact h
  · exact h.withOutput ((h.filled o ho).sameRoom hroom)

/-- An operation `m` that changes at most contents keeps a session sound. -/
theorem keeps_touching {α : Type} {m : SessionM α} (hm : ∀ s, Touching s m) : Keeps Sound m :=
  fun _ h => (hm _).use rfl (fun _ _ h' => h'.sound h) fun _ _ h' => h'.sound h

theorem Fresh.filled {s : Session} {a : Advisories} {o : Output} (hfresh : Fresh s a o) (h : s.Sound)
    (hstage : s.stage = .gathered) : ({ s with stage := .reserved }).Filled o where
  stage := Nat.le_refl 2
  arena := hfresh.arena
  length := hfresh.length
  bottom := hfresh.bottom
  room := hfresh.room
  reserved _ := hfresh.current
  switched hrank := absurd (show 4 ≤ 2 from hrank) (by decide)
  layout := Layout.ofUnplaced hfresh.arena (h.bare (h.output_eq_none (by rw [hstage]; decide))).2
  copied kind hrank := absurd (show kind.copiedRank ≤ 2 from hrank) (by cases kind <;> decide)

/-- A session with a fresh output `o` is sound. -/
theorem Fresh.sound {s : Session} {a : Advisories} {o : Output} (hfresh : Fresh s a o) (h : s.Sound)
    (hstage : s.stage = .gathered) : Session.Sound { s with output? := some o, stage := .reserved } where
  settings := h.settings
  dependency := h.dependency
  books := h.books
  bare := nofun
  filled o' ho' := by cases ho'; exact { hfresh.filled h hstage with }

theorem keeps_reserveBuffer (a : Advisories) : Keeps Sound (reserveBuffer a) := by
  intro r h
  refine (triple_reserveBuffer h.settings a).use rfl ?_ fun _ r' h' => by rw [h']; exact h
  rintro _ r' ⟨hstage, o, hfresh, hr'⟩
  rw [hr']
  exact hfresh.sound h hstage

theorem keeps_allocateOther (n : Nat) : Keeps Sound (allocateOther n) := by
  intro r h
  refine (triple_allocateOther h.arenas n).use rfl ?_
    fun _ r' h' => by rw [h'.1]; exact h
  rintro a r' ⟨-, o, t, stats, ho, -, -, hlow, hhigh, hdvd, hr'⟩
  rw [hr']
  exact h.withOutput ((h.filled o ho).grows (Output.grows_advance (by omega) hhigh hdvd))

end SessionM

end SnapshotArchive
