import Mathlib.Tactic.Common
import SnapshotArchive.Proofs.Calls
import SnapshotArchive.Proofs.Tables

/-!
From gathered books to a finished archive. The books stay those that were gathered, and the copies are
made, wired and shifted one phase after the other; each phase leaves what the next one starts from.
-/

namespace SnapshotArchive

namespace Session

variable {g s : Session} {o o' : Output} {tables : TableProvider} {low : Nat} {below : Nat → Word}

/-- Before the first copy the buffer of `o` may hold anything, but no marks. -/
theorem Fills.filling (h : Fills g s) (hnone : ∀ w, ¬s.catalog.Placed w) (ho : s.output? = some o)
    (hbottom : o.buffer.bottom = s.reservations.bottom) (hmarks : ∀ j, o.pointers.has j = false)
    (tables : TableProvider) : Filling g tables o.arena.top o.buffer.words.read s := by
  have hcopy : ∀ w e target, ¬s.HasCopy w e target := fun w e target ⟨he, _, ht⟩ =>
    hnone w ⟨e, he, by rw [ht]; rfl⟩
  refine ⟨h, o, ho, hbottom, Nat.le_refl _, fun _ _ => rfl, fun w e target hc => ?_,
    fun w e target hc => ?_, fun i => ?_⟩
  · exact absurd hc (hcopy w e target)
  · exact absurd hc (hcopy w e target)
  · rw [hmarks]
    refine ⟨nofun, ?_⟩
    rintro ⟨w, e, target, hc, -⟩
    exact absurd hc (hcopy w e target)

theorem Filling.enter (h : Filling g tables low below s) (stage : Stage) :
    Filling g tables low below { s with stage := stage } := by
  obtain ⟨hfills, o, ho, hcontents⟩ := h
  exact ⟨hfills.congr rfl rfl rfl rfl rfl (fun kind => by cases kind <;> rfl) rfl fun _ => rfl, o, ho,
    { hcontents with }⟩

theorem Cataloged.enter {h : Heap} (hc : Cataloged h s) (stage : Stage) :
    Cataloged h { s with stage := stage } := by
  refine ⟨hc.host, hc.kept, ⟨hc.filed.plain, fun kind => ?_⟩, hc.object, hc.fate, fun kind => ?_,
    hc.former⟩
  · cases kind
    · exact hc.filed.filed .mutable
    · exact hc.filed.filed .readOnly
  · cases kind
    · exact hc.total .mutable
    · exact hc.total .readOnly

end Session

namespace SessionM

open Session

variable {g s : Session} {o o' : Output} {tables : TableProvider} {low : Nat} {below : Nat → Word}

/-- A fresh output `o` leaves the books as they were gathered in `g`. -/
theorem fills_reserved (hg : g.Sound) (hstage : g.stage = .gathered)
    (hplain : ∀ w e, g.catalog.get? w = some e → e.isAlias = false) (o : Output) :
    Fills g { g with output? := some o, stage := .reserved } ∧ ∀ w, ¬g.catalog.Placed w := by
  have hnone := (hg.bare (hg.output_eq_none (by rw [hstage]; decide))).2
  exact ⟨(Fills.refl hnone hplain).congr rfl rfl rfl rfl rfl (fun kind => by cases kind <;> rfl) rfl
    fun _ => rfl, hnone⟩

/-- Copying from `g` keeps what was copied before; a failure keeps it too if `tables` has no
    table. -/
theorem triple_copyMutable_filling (g : Session) (tables : TableProvider) (low : Nat)
    (below : Nat → Word) :
    Triple (fun s => s.Sound ∧ s.stage = .reserved ∧ Filling g tables low below s) (copyMutable tables)
      (fun _ s => s.Sound ∧ s.stage = .mutableCopied ∧ Filling g tables low below s)
      (fun _ s => s.Sound ∧ s.stage = .reserved ∧
        ((∀ kind target, tables kind target = none) → Filling g tables low below s)) := by
  refine (triple_copyMutable (C := fun _ => Filling g tables low below)
    (F := fun _ s => (∀ kind target, tables kind target = none) → Filling g tables low below s)
    (fun _ _ _ _ hcopying hC hstep _ => hstep.filling hcopying hC)
    fun _ _ _ _ _ hcopying hC hhalt hnone => hhalt.filling hnone hcopying.sound hC).conseq (fun _ h => h) ?_ fun _ _ h => h
  rintro _ s ⟨s₁, -, hC, rfl, hs⟩
  exact ⟨hs, rfl, hC.enter _⟩

theorem triple_copyReadOnly_filling (g : Session) (tables : TableProvider) (low : Nat)
    (below : Nat → Word) :
    Triple (fun s => s.Sound ∧ s.stage = .mutableCopied ∧ Filling g tables low below s)
      (copyReadOnly tables)
      (fun _ s => s.Sound ∧ s.stage = .readOnlyCopied ∧ Filling g tables low below s)
      (fun _ s => s.Sound ∧ s.stage = .mutableCopied ∧
        ((∀ kind target, tables kind target = none) → Filling g tables low below s)) := by
  refine (triple_copyReadOnly (B := Filling g tables low below) (C := fun _ => Filling g tables low below)
    (F := fun _ s => (∀ kind target, tables kind target = none) → Filling g tables low below s)
    (fun _ _ hB _ _ => hB)
    (fun _ _ hs _ hC hstep => hstep.filling hs hC)
    (fun _ _ _ _ hcopying hC hstep _ => hstep.filling hcopying hC)
    (fun _ _ _ _ _ hcopying hC hhalt hnone => hhalt.filling hnone hcopying.sound hC)
    (fun _ _ _ _ hsettling hmem hsub hstep => hstep.filling hmem hsub hsettling.2.2.2.2.2)
    (fun _ _ hC hstep => hstep.filling hC) fun _ _ hC _ _ => hC).conseq (fun _ h => h) ?_ fun _ _ h => h
  rintro _ s ⟨s₁, -, hC, rfl, hs⟩
  exact ⟨hs, rfl, hC.enter _⟩

/-- Tables of `templates` are put into a fresh output before anything is copied. -/
theorem triple_prepareTables_filling (hg : g.Sound) (hstage : g.stage = .gathered)
    (hplain : ∀ w e, g.catalog.get? w = some e → e.isAlias = false) {a : Advisories}
    (hfresh : Fresh g a o)
    (templates : List DispatchTemplate) :
    Triple (· = { g with output? := some o, stage := .reserved }) (prepareTables templates)
      (fun tables s => s.Sound ∧ s.stage = .reserved ∧ ∃ (o' : Output) (placed : _), placed.map (·.1) = templates ∧
        tables = .ofPlaced placed .empty ∧ (∀ p ∈ placed, o'.HoldsTable p.1 p.2) ∧
        o'.buffer.bottom = g.reservations.bottom ∧
        Filling g tables.provider o'.arena.top o'.buffer.words.read s)
      (fun _ _ => True) := by
  obtain ⟨hfills, hnone⟩ := fills_reserved hg hstage hplain o
  refine (triple_prepareTables (o := o) rfl hfresh.arena hfresh.length templates).conseq (fun _ h => h) ?_
    fun _ _ h => h
  rintro tables s ⟨o', placed, ⟨hext, stats, rfl⟩, hmap, rfl, hholds⟩
  have hs := hfresh.sound hg hstage
  have hbottom : o'.buffer.bottom = g.reservations.bottom := hext.grows.bottom.trans hfresh.buffer
  have hfills' : Fills g { g with output? := some o', stage := .reserved, stats := stats } :=
    hfills.congr rfl rfl rfl rfl rfl (fun kind => by cases kind <;> rfl) rfl fun _ => rfl
  exact ⟨hs.withOutput ((hs.filled o rfl).grows hext.grows), rfl, o', placed, hmap, rfl, hholds, hbottom,
    hfills'.filling hnone rfl hbottom (fun j => (hext.marks j).trans (hfresh.marks j)) _⟩

end SessionM

namespace Assembled

open Session SessionM

variable {h : Heap} {g s : Session} {tables : TableProvider} {low : Nat} {below : Nat → Word}
  {o : Output}

theorem of_filling (heap : h.Sound) (cataloged : Cataloged h g) (grounded : Grounded h g)
    (hs : s.Sound) (hfilling : Filling g tables low below s) :
    ∃ o, Assembled h g tables low below s o := by
  obtain ⟨hfills, o, ho, hcontents⟩ := hfilling
  exact ⟨o, heap, cataloged, grounded, hs, ho, hfills, hcontents⟩

/-- The copies of a heap are wired at `wireSlots s`, or a noted field leads nowhere. -/
theorem triple_wire (ha : Assembled h g tables low below s o) (hstage : s.stage = .readOnlyCopied) :
    Triple (· = s) wire
      (fun _ s' => s'.Sound ∧ ∃ o', Wired s.catalog o o' (wireSlots s o.buffer.bottom) ∧
        s' = { s with output? := some o', stage := .wired })
      (fun _ _ => WireStop s o (wireSlots s o.buffer.bottom)) := by
  have hdvd : ∀ kind e, ∀ n ∈ (s.copyList kind).pointerOffsets e, 8 ∣ n := by
    intro kind e n hn
    obtain ⟨j, -, rfl⟩ := CopyList.mem_pointerOffsets.1 hn
    exact Nat.dvd_mul_left ..
  refine ((SessionM.triple_wire ha.sound ha.output hstage hdvd
    (ha.nodup_wireSlots (by rw [hstage]; decide))).and keeps_wire).conseq ?_ (fun _ _ h => h.symm)
    fun _ _ h => h.1
  rintro s' rfl
  exact ⟨rfl, ha.sound⟩

end Assembled

/-- The copies of `h` in `o` are wired in `o₁`. -/
structure Linked (h : Heap) (g : Session) (tables : TableProvider) (low : Nat) (below : Nat → Word)
    (s : Session) (o o₁ : Output) : Prop where
  assembled : Assembled h g tables low below s o
  stage : s.stage = .readOnlyCopied
  wired : SessionM.Wired s.catalog o o₁ (SessionM.wireSlots s o.buffer.bottom)
  sound : Session.Sound { s with output? := some o₁, stage := .wired }

namespace SessionM

open Session

/-- What building over `h` leaves in `s'`, for some books `g` and tables at their places. -/
def Builds (h : Heap) (templates : List DispatchTemplate) (s' : Session) : Prop :=
  ∃ (g : Session) (placed : _) (ot : Output) (s : Session) (o o₁ o₂ : Output), Settled h g ∧
    placed.map (·.1) = templates ∧ (∀ p ∈ placed, ot.HoldsTable p.1 p.2) ∧
    ot.buffer.bottom = g.reservations.bottom ∧
    Linked h g (DispatchTables.ofPlaced placed .empty).provider ot.arena.top ot.buffer.words.read s o
      o₁ ∧ Landed { s with output? := some o₁, stage := .wired } o₁ o₂ ∧
    s' = { s with output? := some o₂, stage := .relocated }

/-- All steps up to the last copy; answers the tables of `templates`. -/
def copyAll (roots : List Word) (advisories : Advisories) (templates : List DispatchTemplate) :
    SessionM DispatchTables := do
  gather roots
  reserveBuffer
    { advisories with other := satAdd advisories.other (DispatchTables.estimate templates) }
  let tables ← prepareTables templates
  copyMutable tables.provider
  copyReadOnly tables.provider
  return tables

/-- To build is to `copyAll`, and then to take the last two steps. -/
theorem build_eq (roots : List Word) (advisories : Advisories) (templates : List DispatchTemplate) :
    build roots advisories templates (pure ()) =
      (do let _ ← copyAll roots advisories templates; wire; relocate) := by
  simp only [build, assemble, copyAll, bind_assoc, pure_bind]

/-- What a gather from `s₀` that succeeds leaves in `s`. -/
structure Gathered (h : Heap) (s₀ s : Session) : Prop where
  sound : s.Sound
  stage : s.stage = .gathered
  cataloged : Cataloged h s
  grounded : Grounded h s
  settled : Settled h s ↔ Settled h s₀
  settings : s.settings = s₀.settings

theorem triple_gather_gathered {h : Heap} {s : Session} (heap : h.Sound) (hs : s.Sound)
    (hc : Cataloged h s) (hg : Grounded h s) (roots : List Word) :
    Triple (· = s) (gather roots) (fun _ => Gathered h s) (fun _ _ => True) := by
  refine ((triple_gather_heap heap hc hg roots).and (keeps_gather roots)).conseq
    (fun s' hs' => ⟨hs', hs' ▸ hs⟩) ?_ fun _ _ _ => trivial
  rintro _ _ ⟨⟨-, s₁, hsearch, ⟨_, _, _, _, hgathers⟩, rfl⟩, hsound⟩
  exact
    { sound := hsound
      stage := rfl
      cataloged := hsearch.searched.cataloged.enter _
      grounded := hsearch.searched.grounded
      settled := hsearch.settled_iff
      settings := by rw [hgathers]; rfl }

/-- What copying leaves of books `g` in `s`, with the tables of `ot` at the places `placed`. -/
structure CopiesAll (h : Heap) (templates : List DispatchTemplate) (tables : DispatchTables) (g : Session)
    (placed : List (DispatchTemplate × Addr .buffer)) (ot : Output) (s : Session) (o : Output) : Prop where
  settled : Settled h g
  order : placed.map (·.1) = templates
  answer : tables = .ofPlaced placed .empty
  holds : ∀ p ∈ placed, ot.HoldsTable p.1 p.2
  bottom : ot.buffer.bottom = g.reservations.bottom
  assembled : Assembled h g tables.provider ot.arena.top ot.buffer.words.read s o
  stage : s.stage = .readOnlyCopied

theorem triple_copyAll {h : Heap} {s₀ : Session} (heap : h.Sound) (hs₀ : s₀.Sound)
    (hc₀ : Cataloged h s₀) (hg₀ : Grounded h s₀) (hsettled₀ : Settled h s₀) (roots : List Word)
    (advisories : Advisories) (templates : List DispatchTemplate) :
    Triple (· = s₀) (copyAll roots advisories templates)
      (fun tables s => ∃ g placed ot o, CopiesAll h templates tables g placed ot s o ∧
        g.settings = s₀.settings) (fun _ _ => True) := by
  rintro r rfl
  unfold copyAll
  simp only [wp_bind]
  refine (triple_gather_gathered heap hs₀ hc₀ hg₀ roots).use rfl ?_ fun _ _ _ => trivial
  intro _ r₁ hgathered
  refine (triple_reserveBuffer hgathered.sound.settings _).use rfl ?_ fun _ _ _ => trivial
  rintro _ r₂ ⟨-, o, hfresh, hr₂⟩
  refine (triple_prepareTables_filling hgathered.sound hgathered.stage hgathered.cataloged.filed.plain hfresh
    templates).use hr₂ ?_ fun _ _ _ => trivial
  rintro tables r₃ ⟨hs₃, hstage₃, ot, placed, hmap, rfl, hholds, hbottom, hfilling₃⟩
  refine (triple_copyMutable_filling _ _ _ _).use ⟨hs₃, hstage₃, hfilling₃⟩ ?_ fun _ _ _ => trivial
  intro _ r₄ h₄
  refine (triple_copyReadOnly_filling _ _ _ _).use h₄ ?_ fun _ _ _ => trivial
  rintro _ r₅ ⟨hs₅, hstage₅, hfilling₅⟩
  obtain ⟨o₅, ha⟩ := Assembled.of_filling heap hgathered.cataloged hgathered.grounded hs₅ hfilling₅
  rw [wp_pure]
  have hsettled : Settled h r₁.session := hgathered.settled.2 hsettled₀
  exact ⟨r₁.session, placed, ot, o₅, ⟨hsettled, hmap, rfl, hholds, hbottom, ha, hstage₅⟩, hgathered.settings⟩

/-- What assembling leaves of some books `g` in `s'`, with tables at their places. -/
def Assembles (h : Heap) (settings : Settings) (templates : List DispatchTemplate) (s' : Session) : Prop :=
  ∃ (g : Session) (placed : _) (ot : Output) (s : Session) (o o₁ : Output), Settled h g ∧
    g.settings = settings ∧ placed.map (·.1) = templates ∧ (∀ p ∈ placed, ot.HoldsTable p.1 p.2) ∧
    ot.buffer.bottom = g.reservations.bottom ∧
    Linked h g (DispatchTables.ofPlaced placed .empty).provider ot.arena.top ot.buffer.words.read s o
      o₁ ∧ s' = { s with output? := some o₁, stage := .wired }

/-- Assembling from a sound `s₀` goes through all phases but the last. -/
theorem triple_assemble {h : Heap} {s₀ : Session} (heap : h.Sound) (hs₀ : s₀.Sound)
    (hc₀ : Cataloged h s₀) (hg₀ : Grounded h s₀) (hsettled₀ : Settled h s₀) (roots : List Word)
    (advisories : Advisories) (templates : List DispatchTemplate) :
    Triple (· = s₀) (assemble roots advisories templates)
      (fun _ => Assembles h s₀.settings templates) (fun _ _ => True) := by
  have heq : assemble roots advisories templates =
      (do let _ ← copyAll roots advisories templates; wire) := by
    simp only [assemble, copyAll, bind_assoc, pure_bind]
  rintro r rfl
  rw [heq, wp_bind]
  refine (triple_copyAll heap hs₀ hc₀ hg₀ hsettled₀ roots advisories templates).use rfl ?_ fun _ _ _ => trivial
  rintro _ r₁ ⟨g, placed, ot, o, ⟨hsettled, hmap, rfl, hholds, hbottom, ha, hstage⟩, hsettings⟩
  refine (ha.triple_wire hstage).use rfl ?_ fun _ _ _ => trivial
  rintro _ r₂ ⟨hs₂, o₁, hwired, hr₂⟩
  rw [hr₂] at hs₂
  exact ⟨g, placed, ot, r₁.session, o, o₁, hsettled, hsettings, hmap, hholds, hbottom, ⟨ha, hstage, hwired, hs₂⟩, hr₂⟩

/-- Building from a sound `s₀` goes through all phases. -/
theorem triple_build {h : Heap} {s₀ : Session} (heap : h.Sound) (hs₀ : s₀.Sound)
    (hc₀ : Cataloged h s₀) (hg₀ : Grounded h s₀) (hsettled₀ : Settled h s₀) (roots : List Word)
    (advisories : Advisories) (templates : List DispatchTemplate) :
    Triple (· = s₀) (build roots advisories templates (pure ())) (fun _ => Builds h templates)
      (fun _ _ => True) := by
  rintro r rfl
  unfold build
  rw [pure_bind, wp_bind]
  refine (triple_assemble heap hs₀ hc₀ hg₀ hsettled₀ roots advisories templates).use rfl ?_ fun _ _ _ => trivial
  rintro _ r₁ ⟨g, placed, ot, s, o, o₁, hsettled, -, hmap, hholds, hbottom, hl, hr₁⟩
  refine (triple_relocate hl.sound rfl rfl).use hr₁ ?_ fun _ _ _ => trivial
  rintro _ r₂ ⟨o₂, hlanded, hr₂⟩
  exact ⟨g, placed, ot, s, o, o₁, o₂, hsettled, hmap, hholds, hbottom, hl, hlanded, hr₂⟩

end SessionM

end SnapshotArchive
