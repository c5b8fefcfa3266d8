import Mathlib.Tactic.Common
import SnapshotArchive.Proofs.Images
import SnapshotArchive.Proofs.Retrying

/-!
When a pointer of an archive is null. Own pointers lead above the bottom padding, and an archive on top of
a dependency is requested above the dependency; so no shift takes them to zero. A pointer into the
dependency becomes zero if it leads to its very bottom and the base address is zero, and only then.
-/

namespace SnapshotArchive

open SessionM Session

namespace Session

variable {s : Session} {o : Output} {w : Word}

/-- The pointer `w` in the output leads to the very bottom of the dependency of `s`. -/
def LeadsToBottom (s : Session) (w : Word) : Prop :=
  ∃ o d, s.output? = some o ∧ s.dependency? = some d ∧ ¬o.InUse w ∧ d.mapped.contains w = true ∧
    w = d.mapped.bottom.word

/-- An archive on top of a dependency `d` that is not empty is requested above zero. -/
theorem Filled.requestedBottom_pos (hf : s.Filled o) (hs : s.Sound) {d : Dependency}
    (hd : s.dependency? = some d) (hin : d.mapped.contains w = true) : 0 < o.requestedBottom.toNat := by
  obtain ⟨k, hk, -⟩ := Settings.validate_eq_ok hs.settings
  have hbottom := hf.bottom
  unfold requestedBottom? at hbottom
  rw [hd] at hbottom
  dsimp only at hbottom
  rw [hk] at hbottom
  have hle := (alignUp?_bounds hbottom).1
  have hlength := (hs.dependency d hd).2
  have hrequested := d.requested.bottom_add_length
  have hmapped := d.mapped.bottom_add_length
  have hcontains := AddrRange.contains_iff.1 hin
  omega

/-- A pointer `w` above the bottom of the buffer, or any on top of a dependency, is zero after the
    last pass only if it led to the bottom of a dependency that is requested at zero. -/
theorem Shifts.eq_zero_iff (hs : s.Sound) (ho : s.output? = some o) {requested : AddrRange .requested}
    {w w' : Word} (hshift : s.Shifts o requested w w')
    (habove : o.buffer.bottom.toNat < w.toNat ∨
      ∃ d x, s.dependency? = some d ∧ d.mapped.contains x = true) :
    w' = 0 ↔ s.settings.requestedBase = 0 ∧ s.LeadsToBottom w := by
  rw [← UInt64.toNat_inj, ← UInt64.toNat_inj, UInt64.toNat_zero]
  cases hshift with
  | own here shift =>
    have hlow := here.1
    refine ⟨fun hzero => ?_, fun ⟨_, o', d, ho', _, hout, _⟩ => ?_⟩
    · rcases habove with habove | ⟨d, x, hd, hin⟩
      · omega
      · have := (hs.filled o ho).requestedBottom_pos hs hd hin
        omega
    · obtain rfl := Option.some_inj.1 (ho.symm.trans ho')
      exact absurd here hout
  | @foreign d elsewhere hd there shift =>
    have hbase : d.requested.bottom.toNat = s.settings.requestedBase.toNat :=
      congrArg UInt64.toNat (hs.dependency d hd).1
    have hlow := (AddrRange.contains_iff.1 there).1
    constructor
    · intro hzero
      have hbottom : w.toNat = d.mapped.bottom.toNat := by omega
      exact ⟨by omega, o, d, ho, hd, elsewhere, there, UInt64.toNat_inj.1 hbottom⟩
    · rintro ⟨hzero, o', d', -, hd', -, -, rfl⟩
      obtain rfl := Option.some_inj.1 (hd.symm.trans hd')
      change (_ : Int) = (d.mapped.bottom.toNat : Int) + _ at shift
      omega

end Session

namespace Linked

variable {h : Heap} {g s : Session} {tables : TableProvider} {low : Nat} {below : Nat → Word}
  {o o₁ : Output} {t : Word} {e : SourceEntry} {i : Nat}

/-- There is a dependency if anything in it has an entry, be it for an object `t` that it
    replaced. -/
theorem exists_dependency (hl : Linked h g tables low below s o o₁) (hleads : s.Leads t)
    (he : s.catalog.get? t = some e) (hd : e.disposition = .aliasToExisting) :
    ∃ d x, s.dependency? = some d ∧ d.mapped.contains x = true := by
  induction hleads generalizing e with
  | @own t x entry plain =>
    obtain rfl : x = e := Option.some_inj.1 (entry.symm.trans he)
    obtain ⟨d, hdep, hin⟩ := hl.assembled.cataloged.fate t _ (hl.assembled.fills.own t x entry plain) hd
    exact ⟨d, _, hl.assembled.fills.dependency.trans hdep, hin⟩
  | @replaced t substitute x former by_ entry settled standIn _ ih =>
    obtain rfl : x.standIn t = e := Option.some_inj.1 (standIn.symm.trans he)
    exact ih entry hd

/-- A marked word `i` that is not null leads above the bottom of the buffer, or there is a
    dependency. -/
theorem above_or_dependent (hl : Linked h g tables low below s o o₁)
    (htables : ∀ kind target table, tables kind target = some table →
      o.buffer.bottom.toNat < table.toNat)
    (hmark : o₁.pointers.has i = true) (hne : o₁.buffer.words.read i ≠ 0) :
    o₁.buffer.bottom.toNat < (o₁.buffer.words.read i).toNat ∨
      ∃ d x, s.dependency? = some d ∧ d.mapped.contains x = true := by
  have hlayout := (hl.assembled.sound.filled o hl.assembled.output).layout
  rw [hl.wired.room.bottom]
  by_cases hslot : i ∈ wireSlots s o.buffer.bottom
  · obtain ⟨outcome, hout, hread⟩ := hl.wired.words i hslot
    obtain ⟨x, hx, hr⟩ := Catalog.resolve_eq_ok.1 hout
    rw [hread] at hne ⊢
    obtain ⟨target, htarget, rfl⟩ | ⟨hd, rfl⟩ := SourceEntry.copy_or_existing hr hne
    · obtain ⟨offset, hoffset, -, hpadding, -⟩ := hlayout.inside _ x target hx htarget
      left
      change _ < target.toNat
      unfold bottomPadding at hpadding
      omega
    · exact .inr (hl.exists_dependency (hl.assembled.fills.leads _ x hx) hx hd)
  · have hset : o.pointers.has i = true := by
      rw [hl.wired.marks] at hmark
      simpa [hslot] using hmark
    obtain ⟨w, e, target, hcopy, rfl, hstarts⟩ := (hl.assembled.contents.marks i).1 hset
    have hword := hl.assembled.contents.words w e target hcopy 0 (hl.assembled.size_pos hcopy)
    obtain ⟨table, htable⟩ : ∃ table, tables e.kind target = some table := by
      unfold startsWithTable at hstarts
      cases htable : tables e.kind target with
      | none =>
        rw [htable] at hstarts
        cases hstarts
      | some table => exact ⟨table, rfl⟩
    rw [hl.wired.others _ hslot]
    unfold copiedWord at hword
    rw [htable, Nat.add_zero] at hword
    rw [hword]
    exact .inl (htables _ _ _ htable)

end Linked

namespace Session

variable {s' : Session} {o' : Output}

/-- What the last pass makes of the `s` that was assembled. -/
theorem null_iff_of_assembles {h : Heap} {settings : Settings} {templates : List DispatchTemplate}
    (hassembles : Assembles h settings templates s) (ho : s.output? = some o) (hlanded : Landed s o o') :
    ∃ a, archive? { s with output? := some o', stage := .relocated } = some a ∧
      ∀ i, a.pointers.has i = true → (a.buffer.words.read i = 0 ↔
        settings.requestedBase = 0 ∧ s.LeadsToBottom (s.bufferWord i)) := by
  obtain ⟨g, placed, ot, s₁, o₁, _, -, hsettings, -, hholds, hbottom, hl, rfl⟩ := hassembles
  cases ho
  rw [← hl.assembled.fills.settings] at hsettings
  obtain ⟨a, ha, hfin⟩ := finished_of_landed hl.sound hlanded
  have htables : ∀ kind target table, (DispatchTables.ofPlaced placed .empty).provider kind target =
      some table → o₁.buffer.bottom.toNat < table.toNat := by
    intro kind target table htable
    rw [DispatchTables.provider_ofPlaced] at htable
    obtain ⟨t, hmem, -⟩ := DispatchTables.mem_of_last? htable
    obtain ⟨hplace, hlow, -⟩ := hholds _ hmem
    rw [hl.assembled.contents.bottom, hl.assembled.fills.reservations, ← hbottom]
    unfold bottomPadding at hlow
    dsimp only at *
    omega
  refine ⟨a, ha, fun i hi => ?_⟩
  rw [hfin.marks, Bool.and_eq_true, bne_iff_ne] at hi
  rw [← hsettings]
  exact (hfin.pointers i hi.1 hi.2).eq_zero_iff hl.sound rfl
    (hl.above_or_dependent htables hi.1 hi.2)

/-- Where the archive of a build from `roots` holds a marked word that is null: at the pointers that
    lead to the very bottom of the dependency, if the base address is zero. There are no others. -/
theorem build_null_iff {h : Heap} (made : h.Made) {reservations : Reservations} {settings : Settings}
    {mapped? : Option (AddrRange .mapped)} {alive : Bool}
    (hbegin : begin h.toHost reservations settings mapped? alive = .ok s) (roots : List Word)
    (advisories : Advisories) (templates : List DispatchTemplate)
    (hok : ((build roots advisories templates (pure ())).perform s).1 = .ok ()) :
    let assembled := ((assemble roots advisories templates).perform s).2.session
    ∃ a, ((build roots advisories templates (pure ())).perform s).2.session.archive? = some a ∧
      ∀ i, a.pointers.has i = true → (a.buffer.words.read i = 0 ↔
        settings.requestedBase = 0 ∧ assembled.LeadsToBottom (assembled.bufferWord i)) := by
  have hs := sound_begin hbegin
  obtain ⟨-, d?, -, rfl⟩ := begin_eq_ok hbegin
  obtain ⟨hcataloged, hgrounded, hsettled⟩ := cataloged_fresh h reservations settings d?
  have hbuild : build roots advisories templates (pure ()) =
      assemble roots advisories templates >>= fun _ => relocate := by
    unfold build
    rw [pure_bind]
  rw [hbuild] at hok ⊢
  obtain ⟨_, hassembled, hrun⟩ := perform_bind_eq_ok hok
  rw [hrun] at hok ⊢
  generalize hbegun : fresh h.toHost reservations settings d? = s at *
  have hsettings : s.settings = settings := by rw [← hbegun]; rfl
  have hassembles := (triple_assemble made.sound hs hcataloged hgrounded hsettled roots advisories
    templates).on_eq_ok (r := ⟨s, #[]⟩) rfl hassembled
  rw [hsettings] at hassembles
  change Assembles h settings templates ((assemble roots advisories templates).perform s).2.session
    at hassembles
  generalize ((assemble roots advisories templates).perform s).2 = r at hok hassembles ⊢
  obtain ⟨hsound, hstage, o, ho⟩ : r.session.Sound ∧ r.session.stage = .wired ∧
      ∃ o, r.session.output? = some o := by
    obtain ⟨_, _, _, _, _, o₁, -, -, -, -, -, hl, hr⟩ := id hassembles
    rw [hr]
    exact ⟨hl.sound, rfl, o₁, rfl⟩
  obtain ⟨o', hlanded, hr'⟩ := (triple_relocate hsound ho hstage).on_eq_ok rfl hok
  rw [hr']
  exact null_iff_of_assembles hassembles ho hlanded

/-- A session over the heap whose procedure refers to the bottom of the dependency, with base address
    zero. -/
def nullSession : Session :=
  (begin mixedHeap.toHost ⟨⟨0x20000⟩, 0x1000, room_fits⟩ ⟨0, 8, 0, false⟩ mixedHeap.dependencyRange?
    false).toOption.get (by decide +kernel)

/-- The session once the procedure is assembled. -/
def nullAssembled : Session :=
  ((assemble [0x100000000010] ⟨0, 0, 0⟩ []).perform nullSession).2.session

theorem nullAssembled_leads : nullAssembled.LeadsToBottom (nullAssembled.bufferWord 6) := by
  have hword : nullAssembled.bufferWord 6 = 0x100000000000 := by decide +kernel
  have hplace : nullAssembled.output?.map (fun o => (o.buffer.bottom.toNat, o.arena.pack.top)) =
      some (0x20000, 64) := by decide +kernel
  have hbottom : nullAssembled.dependency?.map (fun d =>
      (d.mapped.contains 0x100000000000, d.mapped.bottom.word)) = some (true, 0x100000000000) := by
    decide +kernel
  obtain ⟨o, ho, hplace⟩ := Option.map_eq_some_iff.1 hplace
  obtain ⟨d, hd, hbottom⟩ := Option.map_eq_some_iff.1 hbottom
  obtain ⟨hbuffer, htop⟩ := Prod.mk.inj hplace
  obtain ⟨hin, hword'⟩ := Prod.mk.inj hbottom
  rw [hword]
  refine ⟨o, d, ho, hd, fun huse => ?_, hin, hword'.symm⟩
  unfold Output.InUse at huse
  rw [hbuffer, htop] at huse
  exact absurd huse.2 (by decide)

/-- The marked field that refers to the bottom of the dependency is null in the archive, at word
    `6`. -/
theorem build_null_iff_bottom : ∃ a,
    ((build [0x100000000010] ⟨0, 0, 0⟩ [] (pure ())).perform nullSession).2.session.archive? = some a ∧
      a.pointers.has 6 = true ∧ a.buffer.words.read 6 = 0 := by
  have hbegin : begin mixedHeap.toHost ⟨⟨0x20000⟩, 0x1000, room_fits⟩ ⟨0, 8, 0, false⟩
      mixedHeap.dependencyRange? false = .ok nullSession := eq_ok_of_toOption (Option.some_get _).symm
  have hok : ((build [0x100000000010] ⟨0, 0, 0⟩ [] (pure ())).perform nullSession).1.toOption =
      some () := by decide +kernel
  have hmark : (((build [0x100000000010] ⟨0, 0, 0⟩ [] (pure ())).perform
      nullSession).2.session.archive?.map (·.pointers.has 6)) = some true := by decide +kernel
  obtain ⟨a, ha, hnull⟩ := build_null_iff mixedHeap_made hbegin [0x100000000010] ⟨0, 0, 0⟩ []
    (eq_ok_of_toOption hok)
  rw [ha, Option.map_some, Option.some_inj] at hmark
  exact ⟨a, ha, hmark, (hnull 6 hmark).2 ⟨rfl, nullAssembled_leads⟩⟩

end Session

end SnapshotArchive
