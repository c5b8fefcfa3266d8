import Mathlib.Tactic.Common
import SnapshotArchive.Proofs.Images

/-!
Which archives are covered. The steps of a session may be called in any order and again after they
failed. A gather that fails may leave out fields of objects that it entered, and nothing makes up for
them; but for that, every archive that comes out in the end is covered.
-/

namespace SnapshotArchive

open SessionM

/-- A step on the way to an archive, without dispatch tables. -/
inductive Step where
  | gather (roots : List Word)
  | reserveBuffer (advisories : Advisories)
  | copyMutable
  | copyReadOnly
  | wire
  | relocate

namespace Step

/-- The call that a step stands for. -/
def call : Step → Call
  | gather roots => .gather roots
  | reserveBuffer advisories => .reserveBuffer advisories
  | copyMutable => .copyMutable noTables
  | copyReadOnly => .copyReadOnly noTables
  | wire => .wire
  | relocate => .relocate

/-- The session `s` after a step, whether it succeeded or failed. -/
def after (c : Step) (s : Session) : Session := c.call.after s

/-- The stage at which a step is taken. -/
def stage : Step → Stage
  | gather _ => .new
  | reserveBuffer _ => .gathered
  | copyMutable => .reserved
  | copyReadOnly => .mutableCopied
  | wire => .readOnlyCopied
  | relocate => .wired

theorem eq_gather_of_stage : ∀ {c : Step}, c.stage = .new → ∃ roots, c = .gather roots
  | gather roots, _ => ⟨roots, rfl⟩

/-- A step `c` at another stage than its own changes nothing. -/
theorem after_of_ne {s : Session} : ∀ c : Step, s.stage ≠ c.stage → c.after s = s := by
  have hstay : ∀ {t : Stage} {step : String} {m : Unit → SessionM Unit}, s.stage ≠ t →
      ((requireStage t step >>= m).perform s).2.session = s := by
    intro t step m hne
    have hstuck : Triple (· = s) (requireStage t step >>= m) (fun _ s' => s' = s) _ :=
      triple_outOfOrder hne
    obtain ⟨_, -, hstays⟩ | ⟨_, -, hstays, -⟩ := hstuck.perform rfl
    · exact hstays
    · exact hstays
  intro c hne
  cases c <;> exact hstay hne

end Step

namespace Session

/-- The session `s` after some steps. -/
def afterSteps (s : Session) : List Step → Session
  | [] => s
  | c :: rest => (c.after s).afterSteps rest

/-- No gather among the steps that fails leaves out a field of an object that it entered. -/
def Complete (h : Heap) (s : Session) : List Step → Prop
  | [] => True
  | c :: rest =>
    (∀ roots, c = .gather roots → s.stage = .new → ((gather roots).perform s).1 ≠ .ok () →
      Settled h (c.after s)) ∧ (c.after s).Complete h rest

/-- Every field of a copied object that holds the address of an object leads in `a` to where that
    object ended up. -/
def Covered (h : Heap) (s : Session) (a : Archive) : Prop :=
  ∀ w e, s.catalog.get? w = some e → e.isCopied = true → ∃ target, e.output? = some target ∧
    ∀ i t, h.Holds w i t → (s.catalog.get? t).isSome = true ∧
      ∃ place?, s.EndsUp a t place? ∧ a.Points (a.slot target i) place?

end Session

open Session

variable {h : Heap}

/-- Without substitutes no object `w` is replaced. -/
theorem Heap.hasSubstitute_eq (hnone : ∀ w, h.toHost.substitute? w = none) (w : Word) :
    h.toHost.hasSubstitute w = false := by
  have hw : h.substitutes[w]? = none := hnone w
  change h.substitutes.contains w = false
  rw [Std.TreeMap.contains_eq_isSome_getElem?, hw]
  rfl

/-- It is known where the object of `e` ends up, once its copy is made if it is copied. -/
theorem SourceEntry.exists_resolution {e : SourceEntry}
    (h : e.isCopied = true → ∃ target, e.output? = some target) :
    ∃ outcome, e.resolution? = some outcome := by
  unfold resolution?
  cases hd : e.disposition with
  | copy =>
    obtain ⟨target, ht⟩ := h (by unfold isCopied; rw [hd]; rfl)
    exact ⟨.output target, by rw [ht]; rfl⟩
  | aliasToExisting => exact ⟨_, rfl⟩
  | nullOut => exact ⟨_, rfl⟩

namespace Assembled

variable {g s : Session} {tables : TableProvider} {low : Nat} {below : Nat → Word} {o : Output}
  {t w : Word} {e : SourceEntry} {target : Addr .buffer} {i : Nat}

theorem host (ha : Assembled h g tables low below s o) : s.host = h.toHost :=
  ha.fills.host.trans ha.cataloged.host

/-- Without substitutes every entry `e` is that of an object itself. -/
theorem plain (ha : Assembled h g tables low below s o) (hnone : ∀ w, h.toHost.substitute? w = none)
    (he : s.catalog.get? w = some e) : e.isAlias = false := by
  cases ha.fills.leads w e he with
  | own entry plain =>
    obtain rfl := Option.some_inj.1 (he.symm.trans entry)
    exact plain
  | replaced _ by_ =>
    rw [ha.host, hnone] at by_
    cases by_

/-- From the fourth stage on, every copied object `w` has its copy. -/
theorem exists_copy (ha : Assembled h g tables low below s o) (hrank : 4 ≤ s.stage.rank)
    (he : s.catalog.get? w = some e) (hcopied : e.isCopied = true) (hplain : e.isAlias = false) :
    ∃ target, s.HasCopy w e target := by
  obtain ⟨x, target, hcopy, -⟩ := ha.hasCopy (rank_le hrank _)
    (ha.sound.books.enlisted w e he hcopied hplain)
  obtain rfl : e = x := Option.some_inj.1 (he.symm.trans hcopy.1)
  exact ⟨target, hcopy⟩

/-- It is known where an object `t` with an entry `e` ends up. -/
theorem resolve_of_entry (ha : Assembled h g tables low below s o) (hrank : 4 ≤ s.stage.rank)
    (he : g.catalog.get? t = some e) : ∃ outcome, s.catalog.resolve t = .ok outcome := by
  obtain ⟨out, hx⟩ := ha.fills.kept t e he
  have hplain := ha.cataloged.filed.plain t e he
  obtain ⟨outcome, hout⟩ := SourceEntry.exists_resolution (e := { e with output? := out }) fun hcopied =>
    (ha.exists_copy hrank hx hcopied hplain).imp fun _ hcopy => hcopy.2.2
  exact ⟨outcome, Catalog.resolve_eq_ok.2 ⟨_, hx, hout⟩⟩

/-- The object `t` that a noted field `i` of `w` holds can be resolved. -/
theorem resolve_of_notes (ha : Assembled h g tables low below s o)
    (hnone : ∀ w, h.toHost.substitute? w = none) (hrank : 4 ≤ s.stage.rank) (hnotes : g.Notes w i) :
    ∃ t outcome, h.Holds w i t ∧ s.catalog.resolve t = .ok outcome := by
  obtain ⟨t, hholds, hknows⟩ := ha.grounded w i hnotes
  have hsome : (g.catalog.get? t).isSome = true := by
    refine hknows.resolve_right fun hsub => ?_
    rw [ha.cataloged.host, Heap.hasSubstitute_eq hnone] at hsub
    cases hsub
  obtain ⟨x, hx⟩ := Option.isSome_iff_exists.1 hsome
  obtain ⟨outcome, hout⟩ := ha.resolve_of_entry hrank hx
  exact ⟨t, outcome, hholds, hout⟩

/-- A copy at `target` is a slot of the buffer. -/
theorem slotOffset_copy (ha : Assembled h g tables low below s o) (hcopy : s.HasCopy w e target) :
    o.buffer.slotOffset target = .ok (wordBytes * o.spot target) := by
  obtain ⟨hplace, -, hhigh⟩ := ha.place hcopy
  have hpos := ha.size_pos hcopy
  have hf := ha.sound.filled o ha.output
  have htop := hf.arena.top_le_length
  rw [hf.length] at htop
  exact Buffer.slotOffset_eq_ok_iff.2 ⟨hplace, Nat.dvd_mul_right .., by unfold wordBytes at *; omega⟩

/-- Wiring does not stop if what noted fields lead to can be resolved, and no table is in its place. -/
theorem not_wireStop (ha : Assembled h g tables low below s o) (hrank : 4 ≤ s.stage.rank)
    (hleads : ∀ w e target i, s.HasCopy w e target → g.Notes w i → ∃ t outcome, h.Holds w i t ∧
      s.catalog.resolve t = .ok outcome ∧ (i = 0 → tables e.kind target = none)) :
    ¬WireStop s o (wireSlots s o.buffer.bottom) := by
  rintro (⟨j, hj, v, hv⟩ | ⟨w, e, target, v, he, hplain, ht, hv⟩)
  · obtain ⟨w, e, target, i, hcopy, hnotes, rfl⟩ := (ha.mem_wireSlots hrank).1 hj
    obtain ⟨t, outcome, hholds, hout, htable⟩ := hleads w e target i hcopy hnotes
    have hword := ha.contents.words w e target hcopy i (ha.noted_lt hcopy hnotes)
    rw [ha.holds_word hcopy hholds htable] at hword
    change s.catalog.resolve (o.buffer.words.read (o.spot target + i)) = _ at hv
    change o.buffer.words.read (o.spot target + i) = _ at hword
    rw [hword, hout] at hv
    cases hv
  · rw [ha.slotOffset_copy ⟨he, hplain, ht⟩] at hv
    cases hv

end Assembled

namespace Linked

variable {g s : Session} {low : Nat} {below : Nat → Word} {o o₁ o₂ : Output} {a : Archive}

/-- The final pass does not stop. -/
theorem not_offends (hl : Linked h g noTables low below s o o₁)
    (hnone : ∀ w, h.toHost.substitute? w = none) (i : Nat) :
    ¬Offends { s with output? := some o₁, stage := .wired } o₁ i := by
  rintro ⟨hmark, hne, hlost, -⟩
  refine absurd ((landing_isSome _).2 ?_) (by rw [hlost]; nofun)
  have hrank : 4 ≤ s.stage.rank := by rw [hl.stage]; decide
  rw [hl.wired.marks, Bool.or_eq_true, Bool.and_eq_true, decide_eq_true_eq] at hmark
  rcases hmark with hset | ⟨hslot, -⟩
  · obtain ⟨w, e, target, -, -, hstarts⟩ := (hl.assembled.contents.marks i).1 hset
    cases hstarts
  · obtain ⟨outcome, hout, hread⟩ := hl.wired.words i hslot
    obtain ⟨x, hx, hr⟩ := Catalog.resolve_eq_ok.1 hout
    have hplain := hl.assembled.plain hnone hx
    rw [hread] at hne ⊢
    obtain ⟨target, htarget, rfl⟩ | ⟨hd, rfl⟩ := SourceEntry.copy_or_existing hr hne
    · exact Or.inl (hl.copy_inUse ⟨hx, hplain, htarget⟩).1
    · obtain ⟨d, hdep, hin⟩ := hl.assembled.cataloged.fate _ _ (hl.assembled.fills.own _ x hx hplain) hd
      rw [← hl.assembled.fills.dependency] at hdep
      rw [← hl.assembled.sound.books.keyed _ x hx] at hin
      exact Or.inr ⟨d, hdep, hin⟩

/-- An archive is covered exactly if nothing was left out when `g` was gathered. -/
theorem covered_iff (hl : Linked h g noTables low below s o o₁)
    (hnone : ∀ w, h.toHost.substitute? w = none) (hapart : h.Apart o.buffer)
    (hfin : Finished { s with output? := some o₁, stage := .wired } o₁ a) :
    Covered h (s.finish o₂) a ↔ Settled h g := by
  have hrank : 4 ≤ s.stage.rank := by rw [hl.stage]; decide
  constructor
  · intro hcovered w e he hcopied i t hholds
    obtain ⟨out, hx⟩ := hl.assembled.fills.kept w e he
    obtain ⟨target, htarget, hfields⟩ := hcovered w _ hx hcopied
    obtain ⟨-, place?, -, hpoints⟩ := hfields i t hholds
    have hcopy : s.HasCopy w { e with output? := out } target :=
      ⟨hx, hl.assembled.plain hnone hx, htarget⟩
    -- a field that was left out still holds its target's address, unmarked, in the copy
    by_contra hnotes
    obtain ⟨obj, hobj, -, hlt, hread, hsome⟩ := id hholds
    obtain ⟨obj', hobj', -, hsize, -⟩ := hl.assembled.copy hcopy
    obtain rfl : obj = obj' := Option.some_inj.1 (hobj.symm.trans hobj')
    have hi : i < e.size / wordBytes := by
      change e.size = _ at hsize
      rw [hsize, Nat.mul_div_cancel_left _ (by decide)]
      exact hlt
    obtain ⟨hword, hunmarked⟩ := hl.plain_of_not_notes hfin hcopy hi hnotes fun _ => rfl
    cases place? with
    | some n => exact absurd (hpoints.2.symm.trans hunmarked) (by decide)
    | none =>
      have hpos := (hl.assembled.heap.toNat_apart hapart hsome).1
      rw [← hread, ← hl.assembled.heap.wordAt_eq hobj, ← hword, hpoints.1] at hpos
      exact absurd hpos (Nat.lt_irrefl 0)
  · intro hsettled w e he hcopied
    have hplain := hl.assembled.plain hnone (show s.catalog.get? w = some e from he)
    obtain ⟨target, hcopy⟩ := hl.assembled.exists_copy hrank he hcopied hplain
    refine ⟨target, hcopy.2.2, fun i t hholds => ?_⟩
    have hnotes : g.Notes w i := hsettled w _ (hl.assembled.fills.own w e he hplain) hcopied i t hholds
    obtain ⟨t', outcome, hholds', hout⟩ := hl.assembled.resolve_of_notes hnone hrank hnotes
    obtain rfl := hholds'.unique hholds
    obtain ⟨x, hx, -⟩ := Catalog.resolve_eq_ok.1 hout
    refine ⟨by rw [show (s.finish o₂).catalog.get? t' = some x from hx]; rfl, ?_⟩
    refine hl.points_of_notes hfin hapart ?_ hcopy hholds hnotes fun _ => rfl
    intro former _ substitute x hsub
    rw [hl.assembled.host, hnone] at hsub
    cases hsub

end Linked

/-- How far a session has come that gathered the books of another one. -/
inductive Along (h : Heap) : Session → Session → Prop where
  | gathering {s : Session} (heap : h.Sound) (sound : s.Sound) (cataloged : Cataloged h s)
      (grounded : Grounded h s) (rank : s.stage.rank ≤ 1) : Along h s s
  | copying {g s : Session} {low : Nat} {below : Nat → Word} (heap : h.Sound)
      (cataloged : Cataloged h g) (grounded : Grounded h g) (sound : s.Sound)
      (rank : 2 ≤ s.stage.rank ∧ s.stage.rank ≤ 4) (filling : Filling g noTables low below s) : Along h g s
  | linked {g s : Session} {low : Nat} {below : Nat → Word} {o o₁ : Output}
      (linked : Linked h g noTables low below s o o₁) :
      Along h g { s with output? := some o₁, stage := .wired }
  | finished {g s : Session} {low : Nat} {below : Nat → Word} {o o₁ o₂ : Output}
      (linked : Linked h g noTables low below s o o₁)
      (landed : Landed { s with output? := some o₁, stage := .wired } o₁ o₂) : Along h g (s.finish o₂)

namespace Along

variable {g s : Session}

theorem reserveBuffer (ha : Along h g s) (hstage : s.stage = .gathered) (advisories : Advisories) :
    Along h g (Step.after (.reserveBuffer advisories) s) := by
  cases ha with
  | gathering heap sound cataloged grounded rank =>
    change Along h g ((SessionM.reserveBuffer advisories).perform g).2.session
    obtain ⟨_, -, -, o, hfresh, hr⟩ | ⟨f, -, hr⟩ :=
      (triple_reserveBuffer sound.settings advisories).perform rfl
    · obtain ⟨hfills, hunplaced⟩ := fills_reserved sound hstage cataloged.filed.plain o
      rw [hr]
      exact .copying heap cataloged grounded (hfresh.sound sound hstage)
        ⟨Nat.le_refl 2, show 2 ≤ 4 by decide⟩
        (hfills.filling hunplaced rfl hfresh.buffer hfresh.marks _)
    · rw [hr]
      exact .gathering heap sound cataloged grounded rank
  | copying _ _ _ _ rank => rw [hstage] at rank; exact absurd rank (by decide)
  | linked => cases hstage
  | finished => cases hstage

theorem copyMutable (ha : Along h g s) (hstage : s.stage = .reserved) :
    Along h g (Step.after .copyMutable s) := by
  cases ha with
  | gathering _ _ _ _ rank => rw [hstage] at rank; exact absurd rank (by decide)
  | copying heap cataloged grounded sound rank filling =>
    change Along h g ((SessionM.copyMutable noTables).perform s).2.session
    obtain ⟨_, -, hs, hst, hf⟩ | ⟨f, -, hs, hst, hf⟩ :=
      (triple_copyMutable_filling g noTables _ _).perform ⟨sound, hstage, filling⟩
    · exact .copying heap cataloged grounded hs (by rw [hst]; decide) hf
    · exact .copying heap cataloged grounded hs (by rw [hst]; decide) (hf fun _ _ => rfl)
  | linked => cases hstage
  | finished => cases hstage

theorem copyReadOnly (ha : Along h g s) (hstage : s.stage = .mutableCopied) :
    Along h g (Step.after .copyReadOnly s) := by
  cases ha with
  | gathering _ _ _ _ rank => rw [hstage] at rank; exact absurd rank (by decide)
  | copying heap cataloged grounded sound rank filling =>
    change Along h g ((SessionM.copyReadOnly noTables).perform s).2.session
    obtain ⟨_, -, hs, hst, hf⟩ | ⟨f, -, hs, hst, hf⟩ :=
      (triple_copyReadOnly_filling g noTables _ _).perform ⟨sound, hstage, filling⟩
    · exact .copying heap cataloged grounded hs (by rw [hst]; decide) hf
    · exact .copying heap cataloged grounded hs (by rw [hst]; decide) (hf fun _ _ => rfl)
  | linked => cases hstage
  | finished => cases hstage

theorem wire (ha : Along h g s) (hnone : ∀ w, h.toHost.substitute? w = none)
    (hstage : s.stage = .readOnlyCopied) : Along h g (Step.after .wire s) := by
  cases ha with
  | gathering _ _ _ _ rank => rw [hstage] at rank; exact absurd rank (by decide)
  | copying heap cataloged grounded sound rank filling =>
    obtain ⟨o, hassembled⟩ := Assembled.of_filling heap cataloged grounded sound filling
    change Along h g (SessionM.wire.perform s).2.session
    obtain ⟨_, -, hs, o₁, hwired, hr⟩ | ⟨f, -, hstop⟩ :=
      (hassembled.triple_wire hstage).perform rfl
    · rw [hr] at hs ⊢
      exact .linked ⟨hassembled, hstage, hwired, hs⟩
    · have hrank : 4 ≤ s.stage.rank := by rw [hstage]; decide
      refine absurd hstop (hassembled.not_wireStop hrank fun w e target i _ hnotes => ?_)
      obtain ⟨t, outcome, hholds, hout⟩ := hassembled.resolve_of_notes hnone hrank hnotes
      exact ⟨t, outcome, hholds, hout, fun _ => rfl⟩
  | linked => cases hstage
  | finished => cases hstage

theorem relocate (ha : Along h g s) (hnone : ∀ w, h.toHost.substitute? w = none)
    (hstage : s.stage = .wired) : Along h g (Step.after .relocate s) := by
  cases ha with
  | gathering _ _ _ _ rank => rw [hstage] at rank; exact absurd rank (by decide)
  | copying _ _ _ _ rank => rw [hstage] at rank; exact absurd rank (by decide)
  | @linked _ _ _ _ _ hl =>
    change Along h g (SessionM.relocate.perform _).2.session
    obtain ⟨_, -, o₂, hlanded, hr⟩ | ⟨f, -, i, hoffends, -⟩ :=
      (triple_relocate hl.sound rfl rfl).perform rfl
    · rw [hr]
      have hfinished := Along.finished hl hlanded
      exact hfinished
    · exact absurd hoffends (hl.not_offends hnone i)
  | finished => cases hstage

/-- Once something was gathered the books `g` stay. -/
theorem after (ha : Along h g s) (hnone : ∀ w, h.toHost.substitute? w = none) (hnew : s.stage ≠ .new)
    (c : Step) : Along h g (c.after s) := by
  by_cases hstage : s.stage = c.stage
  · cases c with
    | gather => exact absurd hstage hnew
    | reserveBuffer advisories => exact ha.reserveBuffer hstage advisories
    | copyMutable => exact ha.copyMutable hstage
    | copyReadOnly => exact ha.copyReadOnly hstage
    | wire => exact ha.wire hnone hstage
    | relocate => exact ha.relocate hnone hstage
  · rw [c.after_of_ne hstage]
    exact ha

/-- Gathering leaves out what it left out before, and more only if it fails: `Settled` holds
    afterwards only if it did before. -/
theorem gather (ha : Along h g s) (hnew : s.stage = .new) (roots : List Word) :
    Along h (Step.after (.gather roots) s) (Step.after (.gather roots) s) ∧ g = s ∧
      (Settled h (Step.after (.gather roots) s) → Settled h s) ∧
      (((SessionM.gather roots).perform s).1 = .ok () → Settled h s →
        Settled h (Step.after (.gather roots) s)) := by
  cases ha with
  | gathering heap sound cataloged grounded =>
    obtain ⟨_, -, ⟨-, s₁, hsearch, -, hr⟩, hs⟩ | ⟨f, herror, ⟨hsearched, hgathers⟩, hs⟩ :=
      ((triple_gather_heap heap cataloged grounded roots).and (keeps_gather roots)).perform ⟨rfl, sound⟩
    · change Session.Sound (Step.after (.gather roots) g) at hs
      change Step.after (.gather roots) g = _ at hr
      rw [hr] at hs ⊢
      refine ⟨.gathering heap hs (hsearch.searched.cataloged.enter _) hsearch.searched.grounded
        (Nat.le_refl 1), rfl, fun hsettled => hsearch.settled_iff.1 hsettled,
        fun _ hsettled => hsearch.settled_iff.2 hsettled⟩
    · obtain ⟨b, descriptors, strings, estimate, hr⟩ := hgathers
      refine ⟨.gathering heap hs hsearched.cataloged hsearched.grounded ?_, rfl,
        fun hsettled => hsearched.since.settled hsettled, fun hok => nomatch herror.symm.trans hok⟩
      change (((SessionM.gather roots).perform g).2.session).stage.rank ≤ 1
      rw [hr]
      change g.stage.rank ≤ 1
      rw [hnew]
      decide
  | copying _ _ _ _ rank => rw [hnew] at rank; exact absurd rank (by decide)
  | linked => cases hnew
  | finished => cases hnew

/-- The archive `a` that comes out of further `steps` is covered exactly if nothing was left out so
    far and no gather leaves out anything from now on. -/
theorem covered_iff (hnone : ∀ w, h.toHost.substitute? w = none) {a : Archive} :
    ∀ {steps : List Step} {g s : Session}, Along h g s → (s.afterSteps steps).archive? = some a →
      h.Apart a.buffer →
      (Covered h (s.afterSteps steps) a ↔ Settled h g ∧ s.Complete h steps)
  | [], g, s, ha, harchive, hapart => by
    change s.archive? = some a at harchive
    change Covered h s a ↔ Settled h g ∧ True
    rw [and_true]
    unfold archive? at harchive
    split at harchive
    · rename_i hstage
      cases ha with
      | gathering _ _ _ _ rank => rw [hstage] at rank; exact absurd rank (by decide)
      | copying _ _ _ _ rank => rw [hstage] at rank; exact absurd rank.2 (by decide)
      | linked => cases hstage
      | @finished _ _ _ _ _ _ hl hlanded =>
        obtain ⟨a', harchive', hfin⟩ := finished_of_landed hl.sound hlanded
        unfold archive? at harchive'
        rw [if_pos rfl] at harchive'
        obtain rfl : a = a' := Option.some_inj.1 (harchive.symm.trans harchive')
        refine hl.covered_iff hnone ?_ hfin
        unfold Heap.Apart at *
        rw [hfin.bottom, hfin.length, hl.wired.room.bottom, hl.wired.room.length] at hapart
        exact hapart
    · cases harchive
  | c :: rest, g, s, ha, harchive, hapart => by
    change (s.afterSteps (c :: rest)).archive? = some a at harchive
    change Covered h ((c.after s).afterSteps rest) a ↔ Settled h g ∧ (_ ∧ (c.after s).Complete h rest)
    by_cases hgather : s.stage = .new ∧ ∃ roots, c = .gather roots
    · -- a gather: what it leaves out it leaves out for good
      obtain ⟨hnew, roots, rfl⟩ := hgather
      obtain ⟨hnext, rfl, hback, hon⟩ := ha.gather hnew roots
      rw [covered_iff hnone hnext harchive hapart]
      constructor
      · rintro ⟨hsettled, hcomplete⟩
        exact ⟨hback hsettled, fun _ _ _ _ => hsettled, hcomplete⟩
      · rintro ⟨hsettled, hfails, hcomplete⟩
        refine ⟨?_, hcomplete⟩
        by_cases hok : ((SessionM.gather roots).perform g).1 = .ok ()
        · exact hon hok hsettled
        · exact hfails roots rfl hnew hok
    · have hnext : Along h g (c.after s) := by
        by_cases hnew : s.stage = .new
        · rw [c.after_of_ne fun hstage =>
            hgather ⟨hnew, Step.eq_gather_of_stage (hstage.symm.trans hnew)⟩]
          exact ha
        · exact ha.after hnone hnew c
      rw [covered_iff hnone hnext harchive hapart]
      exact and_congr_right fun _ =>
        ⟨fun hcomplete => ⟨fun roots hc hnew => absurd ⟨hnew, roots, hc⟩ hgather, hcomplete⟩, And.right⟩

end Along

namespace Session

/-- Whatever `steps` are taken, in whichever order, and whichever of them fail: an archive `a` that
    comes out, in a buffer apart from the heap, is covered exactly if no gather that failed left out
    a field of an object that it had entered. -/
theorem archive_covered_iff {h : Heap} (made : h.Made) (hnone : ∀ w, h.toHost.substitute? w = none)
    {reservations : Reservations} {settings : Settings} {mapped? : Option (AddrRange .mapped)}
    {alive : Bool} {s : Session}
    (hbegin : begin h.toHost reservations settings mapped? alive = .ok s) (steps : List Step)
    {a : Archive} (harchive : (s.afterSteps steps).archive? = some a) (hapart : h.Apart a.buffer) :
    Covered h (s.afterSteps steps) a ↔ s.Complete h steps := by
  have hs := sound_begin hbegin
  obtain ⟨-, d?, -, rfl⟩ := begin_eq_ok hbegin
  obtain ⟨hcataloged, hgrounded, hsettled⟩ := cataloged_fresh h reservations settings d?
  have hgathering := Along.gathering made.sound hs hcataloged hgrounded (Nat.zero_le 1)
  exact (hgathering.covered_iff hnone harchive hapart).trans (and_iff_right hsettled)

/-- An object that refers to another one for both regions, and then to a third one. -/
def forkedHeap : Heap :=
  (Heap.create 0x100000000000 0).afterCalls
    [.alloc .other 3 none, .alloc .other 1 none, .alloc .other 1 none,
      .setPointer 0x100000000000 0 (some 0x100000000018) none,
      .setPointer 0x100000000000 1 (some 0x100000000018) (some true),
      .setPointer 0x100000000000 2 (some 0x100000000020) none]

/-- A session over that heap, as it begins. -/
def forkedSession : Session :=
  fresh forkedHeap.toHost ⟨⟨0x20000⟩, 0x1000, room_fits⟩ ⟨0x800000000, 64, 0, false⟩ none

/-- A gather that fails at the second field of the object, and an archive all the same. -/
def forkedSteps : List Step :=
  [.gather [0x100000000000], .gather [0x100000000020], .reserveBuffer ⟨0, 0, 0⟩, .copyMutable,
    .copyReadOnly, .wire, .relocate]

/-- The archive of that run. -/
def forkedArchive : Archive := (forkedSession.afterSteps forkedSteps).archive?.get (by decide +kernel)

/-- The third field of the copy still holds the address that it has in the heap. -/
theorem archive_covered_iff_forked :
    (forkedSession.afterSteps forkedSteps).archive? = some forkedArchive ∧
      (Covered forkedHeap (forkedSession.afterSteps forkedSteps) forkedArchive ↔
        forkedSession.Complete forkedHeap forkedSteps) ∧
      ¬Covered forkedHeap (forkedSession.afterSteps forkedSteps) forkedArchive := by
  have harchive : (forkedSession.afterSteps forkedSteps).archive? = some forkedArchive :=
    (Option.some_get _).symm
  have hbegin : begin forkedHeap.toHost ⟨⟨0x20000⟩, 0x1000, by decide⟩ ⟨0x800000000, 64, 0, false⟩ none
      false = .ok forkedSession := begin_fresh (by decide +kernel)
  have hmade : forkedHeap.Made := (Heap.Made.create (by decide) (by decide)).afterCalls _
  have hnone : ∀ w, forkedHeap.toHost.substitute? w = none := by
    intro w
    have hempty : forkedHeap.substitutes = ∅ := rfl
    change forkedHeap.substitutes[w]? = none
    rw [hempty, Std.TreeMap.getElem?_emptyc]
  have hapart : forkedHeap.Apart forkedArchive.buffer := by
    left
    decide +kernel
  refine ⟨harchive, archive_covered_iff hmade hnone hbegin forkedSteps harchive hapart, fun hcovered => ?_⟩
  have hcopy : ((forkedSession.afterSteps forkedSteps).catalog.get? 0x100000000000).map
      (fun e => (e.isCopied, e.output?.map (·.toNat))) = some (true, some 0x20010) := by decide +kernel
  obtain ⟨e, he, hcopied⟩ := Option.map_eq_some_iff.1 hcopy
  obtain ⟨hcopied, hout⟩ := Prod.mk.inj hcopied
  obtain ⟨target, htarget, hfields⟩ := hcovered _ e he hcopied
  rw [htarget, Option.map_some, Option.some_inj] at hout
  have hslot : forkedArchive.slot target 2 = 4 := by
    unfold Archive.slot
    rw [hout]
    decide +kernel
  have hholds : forkedHeap.Holds 0x100000000000 2 0x100000000020 :=
    ⟨(forkedHeap.object? 0x100000000000).get (by decide +kernel), (Option.some_get _).symm,
      by decide +kernel, by decide +kernel, by decide +kernel, by decide +kernel⟩
  obtain ⟨-, place?, -, hpoints⟩ := hfields 2 _ hholds
  rw [hslot] at hpoints
  have hraw : forkedArchive.buffer.words.read 4 = 0x100000000020 ∧
      forkedArchive.pointers.has 4 = false := by decide +kernel
  cases place? with
  | some n => exact absurd (hpoints.2.symm.trans hraw.2) (by decide)
  | none => exact absurd (hpoints.1.symm.trans hraw.1) (by decide)

end Session

end SnapshotArchive
