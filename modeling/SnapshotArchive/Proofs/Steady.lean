import SnapshotArchive.Proofs.Defects
import SnapshotArchive.Proofs.Loading

/-!
From prepared tables to the archive without a defect. Objects are copied once each, in regions that are
begun once; replaced objects are settled once; every pointer field then leads somewhere.
-/

namespace SnapshotArchive

open Session SessionM

namespace SessionM

/-- What copying relies on: the objects of `h` as they were gathered in `g`, and tables below the
    copies, which start at `low`. -/
structure Grounds (h : Heap) (g : Session) (tables : TableProvider) (low : Nat) : Prop where
  heap : h.Sound
  cataloged : Cataloged h g
  tables : ∀ kind target table, tables kind target = some table →
    ∃ m, table.toNat = g.reservations.bottom.toNat + m ∧ 8 ∣ m ∧ bottomPadding ≤ m ∧ m ≤ low

/-- The region `kind` is being copied for the first time, up to `rest`. -/
structure Underway (g : Session) (tables : TableProvider) (low : Nat) (below : Nat → Word)
    (kind : RegionKind) (stage : Stage) (rest : List Word) (s : Session) : Prop where
  copying : Copying kind stage rest s
  filling : Filling g tables low below s
  waiting : ∀ w ∈ rest, ¬s.catalog.Placed w
  plain : ∀ w e, s.catalog.get? w = some e → e.isAlias = false
  claimed : s.catalog.Claimed

variable {h : Heap} {g s s' : Session} {tables : TableProvider} {low : Nat} {below : Nat → Word}
  {kind : RegionKind} {stage : Stage} {rest : List Word} {w : Word} {e : SourceEntry} {o : Output}

namespace Underway

/-- Entries such as `e` are those of heap objects, which have words. -/
theorem size_pos (hu : Underway g tables low below kind stage rest s) (hg : Grounds h g tables low)
    (he : s.catalog.get? w = some e) : wordBytes ≤ e.size := by
  obtain ⟨hfills, -⟩ := hu.filling
  obtain ⟨obj, hobj, -, hsize⟩ := hg.cataloged.object w _ (hfills.own w e he (hu.plain w e he))
  have hpos := hg.heap.filled w obj hobj
  change e.size = obj.length * wordBytes at hsize
  unfold wordBytes at *
  omega

/-- The address `a` that `v` claims lies below the top. -/
theorem claimed_lt (hu : Underway g tables low below kind stage rest s) (hg : Grounds h g tables low)
    (ho : s.output? = some o) {a : Addr .buffer} {v : Word} (hv : s.catalog.sourceOf? a = some v) :
    a.toNat < o.buffer.bottom.toNat + o.arena.top := by
  obtain ⟨x, hx, hout⟩ := hu.claimed a v hv
  obtain ⟨offset, hplace, -, -, hhigh⟩ := (hu.copying.sound.filled o ho).layout.inside v x a hx hout
  have hsize := hu.size_pos hg hx
  unfold wordBytes at hsize
  omega

/-- After a copy of `w` the `rest` is still to be copied. -/
theorem step (hu : Underway g tables low below kind stage (w :: rest) s) (hstep : CopyStep tables w s s')
    (hclaimed : s'.catalog.Claimed) : Underway g tables low below kind stage rest s' := by
  refine ⟨hstep.copying hu.copying, hstep.filling hu.copying hu.filling, fun v hv => ?_, fun v x hx => ?_,
    hclaimed⟩
  · obtain ⟨done, hsplit, -⟩ := hu.copying.done
    have hnodup := hu.copying.sound.books.nodup kind
    rw [hsplit] at hnodup
    have hne : w ≠ v := by
      rintro rfl
      exact (List.nodup_cons.1 (List.nodup_append.1 hnodup).2.1).1 hv
    obtain ⟨_, _, _, _, _, _, _, -, -, -, -, -, hget, rfl⟩ := hstep
    rintro ⟨x, hx, hout⟩
    rw [hget, if_neg hne] at hx
    exact hu.waiting v (List.mem_cons_of_mem _ hv) ⟨x, hx, hout⟩
  · obtain ⟨y, _, _, _, _, _, _, -, hy, -, -, -, hget, rfl⟩ := hstep
    rw [hget] at hx
    split at hx
    · cases hx
      exact hu.plain w y hy
    · exact hu.plain v x hx

/-- The next object `w` is copied, or there is no space for it. -/
theorem triple_copyObject (hu : Underway g tables low below kind stage (w :: rest) s)
    (hg : Grounds h g tables low) (hopen : stage.before .relocated = true) :
    Triple (· = s) (copyObject tables w) (fun _ => Underway g tables low below kind stage rest) Harmless := by
  have hs := hu.copying.sound
  have hharmless : Triple (· = s) (copyObject tables w) (fun _ _ => True) Harmless := by
    obtain ⟨done, hsplit, -⟩ := hu.copying.done
    obtain ⟨e, he, hcopied, -⟩ := hs.books.listed kind w (by rw [hsplit]; simp)
    obtain rfl : e.source = w := hs.books.keyed w e he
    obtain ⟨o, ho, -⟩ := hu.copying.current
    obtain ⟨hfills, o', ho', hcontents⟩ := hu.filling
    obtain rfl := Option.some_inj.1 (ho.symm.trans ho')
    have hfresh : e.output? = none := Option.not_isSome_iff_eq_none.1 fun hout =>
      hu.waiting _ (List.mem_cons_self ..) ⟨e, he, hout⟩
    have hf := hs.filled o ho
    rintro r rfl
    unfold copyObject
    simp only [wp_bind, wp_session, show r.session.catalog.get? e.source = some e from he]
    refine triple_copyEntry_harmless ho (by rw [hu.copying.stage]; exact hopen) hf.arena hf.length he hcopied
      hfresh (hu.size_pos hg he) (fun a v => hu.claimed_lt hg ho) (fun target table htable => ?_) r rfl
    obtain ⟨m, hm, hdvd, -, hle⟩ := hg.tables _ _ _ htable
    rw [hcontents.bottom, hfills.reservations]
    exact ⟨m, hm, hdvd, hle.trans hcontents.top⟩
  refine (((SessionM.triple_copyObject hs w).and (triple_copyObject_claimed hs hu.claimed w)).harmless
    hharmless).conseq (fun _ h => ⟨⟨h, h⟩, h⟩) ?_ fun _ _ h => h
  rintro _ s' ⟨⟨hstep, hclaimed⟩, -⟩
  exact hu.step hstep hclaimed

end Underway

/-- All objects of the region `kind` are copied, or the space does not suffice. -/
theorem triple_copyRegion_underway (hg : Grounds h g tables low) (hopen : stage.before .relocated = true) :
    Triple (fun s => Underway g tables low below kind stage (s.books.sources kind) s) (copyRegion kind tables)
      (fun _ => Underway g tables low below kind stage []) Harmless := by
  intro r hu
  unfold copyRegion
  simp only [wp_bind, wp_session]
  rw [sources_books] at hu
  refine (Triple.forM (I := Underway g tables low below kind stage) (E := Harmless)
    (fun w rest r' hu' => (hu'.triple_copyObject hg hopen) r' rfl) _).use hu (fun _ _ h => h) fun _ _ h => h

/-- The mutable objects of `s` are copied and the read-only ones are not begun. -/
def Halfway (g : Session) (tables : TableProvider) (low : Nat) (below : Nat → Word) (s : Session) : Prop :=
  s.Sound ∧ ∃ s₁, Underway g tables low below .mutable .reserved [] s₁ ∧ s = { s₁ with stage := .mutableCopied }

theorem triple_copyMutable_halfway (hg : Grounds h g tables low) :
    Triple (fun s => Underway g tables low below .mutable .reserved (s.books.sources .mutable) s)
      (copyMutable tables) (fun _ => Halfway g tables low below) Harmless := by
  have hphase : Triple (fun s => Underway g tables low below .mutable .reserved (s.books.sources .mutable) s)
      (copyMutable tables) (fun _ s => ∃ s₁, Underway g tables low below .mutable .reserved [] s₁ ∧
        s = { s₁ with stage := .mutableCopied }) Harmless := by
    intro r hu
    unfold copyMutable
    rw [wp_bind, wp_requireStage, if_pos hu.copying.stage, wp_bind, wp_tell, wp_bind]
    exact (triple_copyRegion_underway hg (by decide)).use hu (fun _ r' h' => ⟨r'.session, h', rfl⟩)
      fun _ _ h => h
  exact (keeps_copyMutable.harmless hphase).conseq (fun s hu => ⟨hu.copying.sound, hu⟩) (fun _ _ h => h)
    fun _ _ h => h

/-- Where the mutable region of `o` is still the current one the read-only region can be begun. -/
theorem triple_switchRegion_harmless (ho : s.output? = some o) (hopen : s.stage.before .relocated = true)
    (hcurrent : o.arena.current = .mutable) :
    Triple (· = s) switchRegion (fun _ => SwitchStep s) Harmless := by
  have hharmless : Triple (· = s) switchRegion (fun _ _ => True) Harmless := by
    rintro r rfl
    unfold switchRegion
    simp only [wp_bind, wp_openOutput, ho, hopen, if_true, wp_ofViolation, Arena.startReadOnly, hcurrent,
      wp_setOutput]
  exact ((triple_switchRegion s).harmless hharmless).conseq (fun _ h => ⟨h, h⟩) (fun _ _ h => h.1)
    fun _ _ h => h

/-- The read-only objects wait for their region, which begins in `s'`. -/
theorem Halfway.underway (hhalf : Halfway g tables low below s) (hswitch : SwitchStep s s') :
    Underway g tables low below .readOnly .mutableCopied (s'.books.sources .readOnly) s' := by
  obtain ⟨hs, s₁, hu, rfl⟩ := hhalf
  refine ⟨hswitch.copying hs rfl, hswitch.filling hs (hu.filling.enter _), ?_, ?_, ?_⟩
  · obtain ⟨o, ho, hcurrent⟩ := hu.copying.current
    obtain ⟨_, _, -, -, rfl⟩ := hswitch
    exact (hu.copying.sound.filled o ho).layout.waiting hcurrent
  · obtain ⟨_, _, -, -, rfl⟩ := hswitch
    exact hu.plain
  · obtain ⟨_, _, -, -, rfl⟩ := hswitch
    exact hu.claimed

/-- Each replaced object of `g` is replaced by one that is archived or nulled. -/
def Regenerated (g : Session) : Prop :=
  ∀ former ∈ g.replaced, ∃ substitute e, g.host.substitute? former = some substitute ∧
    g.catalog.get? substitute = some e ∧ e.disposition ≠ .aliasToExisting

/-- Replaced objects of `s` are settled up to `rest`. -/
structure Replacing (g : Session) (tables : TableProvider) (low : Nat) (below : Nat → Word)
    (rest : List Word) (s : Session) : Prop where
  settling : Settling (Filling g tables low below) s
  unsettled : ∀ former ∈ rest, former ∈ s.replaced ∧ s.catalog.get? former = none
  nodup : rest.Nodup
  settled : ∀ former ∈ s.replaced, former ∈ rest ∨
    ∃ e, s.catalog.get? former = some e ∧ e.resolution?.isSome = true

/-- It is known where a substitute `w` ends up once all objects are copied. -/
theorem resolution_of_settling (hsettling : Settling (Filling g tables low below) s)
    (hplain : ∀ w e, g.catalog.get? w = some e → e.isAlias = false) (he : g.catalog.get? w = some e) :
    ∃ x outcome, s.catalog.get? w = some x ∧ x.resolution? = some outcome := by
  obtain ⟨hs, hstage, -, -, hplaced, ⟨hfills, o, ho, -⟩⟩ := hsettling
  obtain ⟨output?, hx⟩ := hfills.kept w e he
  obtain ⟨outcome, hout⟩ := SourceEntry.exists_resolution (e := { e with output? := output? })
    fun hcopied => by
      have hmem := hs.books.enlisted w _ hx hcopied (hplain w e he)
      have hcopy : s.catalog.Placed w := by
        rcases hkind : RegionKind.ofReadOnly e.readOnly <;> rw [hkind] at hmem
        · exact (hs.filled o ho).copied .mutable (by rw [hstage]; decide) w hmem
        · exact hplaced w hmem
      obtain ⟨y, hy, hsome⟩ := hcopy
      obtain rfl := Option.some_inj.1 (hx.symm.trans hy)
      exact Option.isSome_iff_exists.1 hsome
  exact ⟨_, outcome, hx, hout⟩

namespace Replacing

variable {former : Word}

theorem step (hr : Replacing g tables low below (former :: rest) s) {substitute : Word}
    (hsub : s.host.substitute? former = some substitute) (hstep : AliasStep former substitute s s') :
    Replacing g tables low below rest s' := by
  have hmem := (hr.unsettled former (List.mem_cons_self ..)).1
  obtain ⟨hnot, hnodup⟩ := List.nodup_cons.1 hr.nodup
  have hsettling := hr.settling.alias hstep (hstep.filling hmem hsub hr.settling.2.2.2.2.2)
  refine ⟨hsettling, fun v hv => ?_, hnodup, fun v hv => ?_⟩
  · obtain ⟨hold, hnone⟩ := hr.unsettled v (List.mem_cons_of_mem _ hv)
    obtain ⟨e, outcome, -, -, -, rfl⟩ := hstep
    refine ⟨hold, ?_⟩
    change (s.catalog.put _).get? v = none
    rw [Catalog.get?_put, if_neg]
    · exact hnone
    · rintro rfl
      exact hnot hv
  · obtain ⟨e, outcome, -, hout, hnew, rfl⟩ := hstep
    change v ∈ rest ∨ ∃ x, (s.catalog.put (e.standIn former)).get? v = some x ∧ _
    rw [Catalog.get?_put]
    rcases hr.settled v hv with hin | ⟨x, hx, hsome⟩
    · rcases List.mem_cons.1 hin with rfl | hin
      · exact .inr ⟨_, if_pos rfl, SourceEntry.isSome_resolution?_standIn (by rw [hout]; rfl) _⟩
      · exact .inl hin
    · refine .inr ⟨x, ?_, hsome⟩
      rw [if_neg]
      · exact hx
      · rintro rfl
        have hsame : s.catalog.get? former = some x := hx
        rw [hnew] at hsame
        cases hsame

/-- The replaced object `former` is settled where its substitute is. -/
theorem triple_resolveReplaced (hr : Replacing g tables low below (former :: rest) s)
    (hplain : ∀ w e, g.catalog.get? w = some e → e.isAlias = false) (hsub : Regenerated g) :
    Triple (· = s) (resolveReplaced former) (fun _ => Replacing g tables low below rest) Harmless := by
  have hfills := hr.settling.2.2.2.2.2.1
  obtain ⟨hmem, hnew⟩ := hr.unsettled former (List.mem_cons_self ..)
  obtain ⟨substitute, e, hsubstitute, he, -⟩ := hsub former (hfills.replaced ▸ hmem)
  rw [← hfills.host] at hsubstitute
  obtain ⟨x, outcome, hx, hout⟩ := resolution_of_settling hr.settling hplain he
  have hharmless : Triple (· = s) (resolveReplaced former) (fun _ _ => True) Harmless := by
    rintro r rfl
    have hadd : ∃ c, r.session.catalog.addAlias former substitute = .ok c := by
      have hnew' : r.session.catalog.get? (x.standIn former).source = none := hnew
      simp [Catalog.addAlias, hx, hout, Catalog.add, hnew']
    obtain ⟨c, hc⟩ := hadd
    unfold resolveReplaced
    simp only [wp_bind, wp_session, hsubstitute, wp_ofViolation, hc, wp_update, wp_tell]
  refine ((SessionM.triple_resolveReplaced s former).harmless hharmless).conseq (fun _ h => ⟨h, h⟩) ?_
    fun _ _ h => h
  rintro _ s' ⟨⟨substitute, hsub, hstep⟩, -⟩
  exact hr.step hsub hstep

end Replacing

/-- No replaced object of `s` is entered before the last copy is made. -/
theorem Underway.replacing (hu : Underway g tables low below .readOnly .mutableCopied [] s)
    (hsifted : Sifted h g) : Replacing g tables low below s.replaced.toList s := by
  have hfills := hu.filling.1
  refine ⟨hu.copying.settling hu.filling, fun former hmem => ?_, by rw [hfills.replaced]; exact hsifted.nodup,
    fun former hmem => .inl (Array.mem_toList_iff.2 hmem)⟩
  rw [Array.mem_toList_iff] at hmem
  refine ⟨hmem, Option.eq_none_iff_forall_ne_some.2 fun e he => ?_⟩
  have hentry := hsifted.entries former
    (by rw [hfills.own former e he (hu.plain former e he)]; rfl)
  rw [hsifted.former former (hfills.replaced ▸ hmem)] at hentry
  cases hentry

theorem triple_verifyEstimate_harmless (ho : s.output? = some o) (hopen : s.stage.before .relocated = true)
    (estimate : Nat) (label : String) :
    Triple (· = s) (verifyEstimate estimate label) (fun _ => Metered s) Harmless := by
  have hharmless : Triple (· = s) (verifyEstimate estimate label) (fun _ _ => True) Harmless := by
    rintro r rfl
    unfold verifyEstimate
    simp only [wp_bind, wp_openOutput, ho, hopen, if_true, wp_tell, wp_ofViolation, UsageMeter.verify]
    split <;> rename_i hverify
    · simp only [wp_changeOutput]
    · split at hverify <;> cases hverify
      rfl
  exact ((triple_verifyEstimate estimate label).harmless hharmless).conseq (fun _ h => ⟨h, h⟩)
    (fun _ _ h => h.1) fun _ _ h => h

/-- Every replaced object of `s` has an entry, and it is known where it ends up. -/
def AllReplaced (s : Session) : Prop :=
  ∀ former ∈ s.replaced, ∃ e, s.catalog.get? former = some e ∧ e.resolution?.isSome = true

theorem Metered.allReplaced (h : AllReplaced s) (hmeter : Metered s s') : AllReplaced s' := by
  obtain ⟨_, -, rfl⟩ := hmeter
  exact h

/-- The read-only objects are copied and the replaced ones settled, or there is too little space. -/
theorem triple_copyReadOnly_settled (hg : Grounds h g tables low) (hsifted : Sifted h g)
    (hsub : Regenerated g) :
    Triple (Halfway g tables low below) (copyReadOnly tables)
      (fun _ s => (s.Sound ∧ s.stage = .readOnlyCopied ∧ Filling g tables low below s) ∧ AllReplaced s)
      Harmless := by
  have hplain : ∀ w e, g.catalog.get? w = some e → e.isAlias = false := hg.cataloged.filed.plain
  -- the failures are followed here, what the copies hold in `triple_copyReadOnly_filling`
  have hphase : Triple (Halfway g tables low below) (copyReadOnly tables) (fun _ => AllReplaced) Harmless := by
    intro r hhalf
    obtain ⟨hs, s₁, hu₁, hr⟩ := id hhalf
    have hstage : r.session.stage = .mutableCopied := by rw [hr]
    obtain ⟨o, ho, hcurrent⟩ := hu₁.copying.current
    unfold copyReadOnly
    rw [wp_bind, wp_requireStage, if_pos hstage, wp_bind, wp_tell, wp_bind]
    refine (triple_switchRegion_harmless (s := r.session) (o := o) (by rw [hr]; exact ho)
      (by rw [hstage]; decide) hcurrent).use rfl (fun _ r₁ h₁ => ?_) fun _ _ h => h
    rw [wp_bind]
    refine (triple_copyRegion_underway hg (by decide)).use (hhalf.underway h₁) (fun _ r₂ h₂ => ?_)
      fun _ _ h => h
    simp only [wp_bind, wp_session]
    refine (Triple.forM (I := Replacing g tables low below) (E := Harmless)
      (fun former rest r' h' => (h'.triple_resolveReplaced hplain hsub) r' rfl) _).use (h₂.replacing hsifted)
      (fun _ r₃ h₃ => ?_) fun _ _ h => h
    obtain ⟨-, hstage₃, hout, -⟩ := h₃.settling
    obtain ⟨o₃, ho₃⟩ := Option.ne_none_iff_exists'.1 hout
    rw [wp_output, ho₃]
    refine (triple_verifyEstimate_harmless ho₃ (by rw [hstage₃]; decide) _ _).use rfl (fun _ r₄ h₄ => ?_)
      fun _ _ h => h
    have hall : AllReplaced r₃.session := fun former hmem =>
      (h₃.settled former hmem).resolve_left List.not_mem_nil
    have hall₄ := h₄.allReplaced hall
    exact hall₄
  refine ((triple_copyReadOnly_filling g tables low below).harmless hphase).conseq (fun s hhalf => ⟨?_, hhalf⟩)
    (fun _ _ h => h) fun _ _ h => h
  obtain ⟨hs, s₁, hu, rfl⟩ := hhalf
  exact ⟨hs, rfl, hu.filling.enter _⟩

end SessionM

/-- All copies are made in `o`, of objects that were gathered in full in `g`, and all replaced
    objects are settled. No field lies where a copy has its table. -/
structure Ripe (h : Heap) (g : Session) (tables : TableProvider) (low : Nat) (below : Nat → Word)
    (s : Session) (o : Output) : Prop where
  assembled : Assembled h g tables low below s o
  stage : s.stage = .readOnlyCopied
  grounds : Grounds h g tables low
  settled : Settled h g
  sifted : Sifted h g
  regenerated : Regenerated g
  replaced : AllReplaced s
  heads : ∀ w e t, g.catalog.get? w = some e → e.isCopied = true → h.Holds w 0 t →
    ∀ target, tables e.kind target = none

namespace Ripe

variable {h : Heap} {g s : Session} {tables : TableProvider} {low : Nat} {below : Nat → Word}
  {o o₁ : Output} {w t : Word} {e : SourceEntry} {i : Nat}

theorem rank (hr : Ripe h g tables low below s o) : 4 ≤ s.stage.rank := by
  rw [hr.stage]
  decide

theorem loaded (hr : Ripe h g tables low below s o) : Loaded h tables s o := by
  refine ⟨⟨g, low, below, hr.assembled, hr.settled, fun kind target table htable => ?_⟩, hr.stage⟩
  obtain ⟨m, hm, -, hlow, hhigh⟩ := hr.grounds.tables kind target table htable
  rw [hr.assembled.contents.bottom, hr.assembled.fills.reservations]
  unfold bottomPadding at hlow
  omega

/-- The object `t` that a noted field `i` leads to ends up somewhere. -/
theorem exists_outcome (hr : Ripe h g tables low below s o) (hnotes : g.Notes w i) (hholds : h.Holds w i t) :
    ∃ outcome, s.catalog.resolve t = .ok outcome := by
  obtain ⟨t', hholds', hknows⟩ := hr.assembled.grounded w i hnotes
  obtain rfl := hholds'.unique hholds
  rcases hknows with hsome | hsub
  · obtain ⟨e, he⟩ := Option.isSome_iff_exists.1 hsome
    exact hr.assembled.resolve_of_entry hr.rank he
  · have hmem := hr.sifted.noted w i t' hnotes hholds hsub
    obtain ⟨e, he, hout⟩ := hr.replaced t' (hr.assembled.fills.replaced ▸ hmem)
    obtain ⟨outcome, hout⟩ := Option.isSome_iff_exists.1 hout
    exact ⟨outcome, Catalog.resolve_eq_ok.2 ⟨e, he, hout⟩⟩

/-- Only objects themselves stay in the dependency, nothing that stands in for them: `e` is no
    alias. -/
theorem plain_of_existing (hr : Ripe h g tables low below s o) (he : s.catalog.get? w = some e)
    (hfate : e.disposition = .aliasToExisting) : e.isAlias = false := by
  have hfills := hr.assembled.fills
  rcases hfills.leads w e he with @⟨_, x, entry, plain⟩ | @⟨_, substitute, x, former, by_, entry, -, standIn, -⟩
  · obtain rfl := Option.some_inj.1 (he.symm.trans entry)
    exact plain
  · obtain ⟨substitute', y, hsub, hy, hother⟩ := hr.regenerated w (hfills.replaced ▸ former)
    rw [hfills.host, hsub] at by_
    cases by_
    obtain ⟨out, hkept⟩ := hfills.kept _ y hy
    obtain rfl := Option.some_inj.1 (entry.symm.trans hkept)
    obtain rfl := Option.some_inj.1 (he.symm.trans standIn)
    exact absurd hfate hother

/-- Every pointer field of the copies in `o` is wired. -/
theorem triple_wire (hr : Ripe h g tables low below s o) :
    Triple (· = s) wire (fun _ s' => ∃ o₁, Linked h g tables low below s o o₁ ∧
      s' = { s with output? := some o₁, stage := .wired }) Harmless := by
  refine (hr.assembled.triple_wire hr.stage).conseq (fun _ h => h) ?_ fun f _ hstop => ?_
  · rintro _ s' ⟨hs, o₁, hwired, rfl⟩
    exact ⟨o₁, ⟨hr.assembled, hr.stage, hwired, hs⟩, rfl⟩
  · refine absurd hstop (hr.assembled.not_wireStop hr.rank fun w e target i hcopy hnotes => ?_)
    obtain ⟨t, hholds, -⟩ := hr.assembled.grounded w i hnotes
    obtain ⟨outcome, hout⟩ := hr.exists_outcome hnotes hholds
    obtain ⟨-, -, -, -, -, -, hcopied, -⟩ := hr.assembled.copy hcopy
    refine ⟨t, outcome, hholds, hout, ?_⟩
    rintro rfl
    exact hr.heads w _ t (hr.assembled.fills.own w e hcopy.1 hcopy.2.1) hcopied hholds target

/-- The word of an `outcome` that is not null leads into the archive or into the dependency. -/
theorem leads_of_outcome (hr : Ripe h g tables low below s o) (hl : Linked h g tables low below s o o₁)
    {outcome : Resolution} (hout : s.catalog.resolve t = .ok outcome) (hne : outcome.word ≠ 0) :
    LeadsSomewhere { s with output? := some o₁, stage := .wired } o₁ outcome.word := by
  obtain ⟨x, hx, hres⟩ := Catalog.resolve_eq_ok.1 hout
  obtain ⟨target, htarget, rfl⟩ | ⟨hfate, rfl⟩ := SourceEntry.copy_or_existing hres hne
  · obtain ⟨v, y, hcopy, -⟩ := hr.loaded.copy_of_output hx htarget
    exact .inl (hl.copy_inUse hcopy).1
  · have hplain := hr.plain_of_existing hx hfate
    obtain ⟨d, hd, hin⟩ := hr.assembled.cataloged.fate _ _ (hr.assembled.fills.own _ x hx hplain) hfate
    rw [← hr.assembled.fills.dependency] at hd
    rw [← hr.assembled.sound.books.keyed _ x hx] at hin
    exact .inr ⟨d, hd, hin⟩

/-- Every pointer `i` of the buffer leads into the archive or into the dependency. -/
theorem not_offends (hr : Ripe h g tables low below s o) (hl : Linked h g tables low below s o o₁) (i : Nat) :
    ¬Offends { s with output? := some o₁, stage := .wired } o₁ i := by
  rintro ⟨hmark, hne, hlost, -⟩
  refine absurd ((landing_isSome _).2 ?_) (by rw [hlost]; nofun)
  rw [hl.wired.marks, Bool.or_eq_true, Bool.and_eq_true, decide_eq_true_eq] at hmark
  by_cases hslot : i ∈ wireSlots s o.buffer.bottom
  · obtain ⟨outcome, hout, hread⟩ := hl.wired.words i hslot
    rw [hread] at hne ⊢
    exact hr.leads_of_outcome hl hout hne
  · -- a mark that was there before is that of a table in front of a copy
    obtain ⟨w, e, target, hcopy, rfl, hstarts⟩ :=
      (hr.assembled.contents.marks i).1 (hmark.resolve_right fun h => hslot h.1)
    obtain ⟨table, htable, -⟩ := Option.any_eq_true _ _ |>.1 hstarts
    have hword := hr.loaded.word hcopy (hr.assembled.size_pos hcopy)
    obtain ⟨hlow, hhigh⟩ := hr.loaded.table_place hcopy htable
    rw [hl.wired.others _ hslot]
    change LeadsSomewhere _ _ (o.buffer.words.read (o.spot target + 0))
    rw [hword]
    unfold copiedWord
    rw [htable]
    exact .inl (hl.inUse hlow.le hhigh)

end Ripe

namespace SessionM

variable {h : Heap} {g s : Session} {tables : TableProvider} {low : Nat} {below : Nat → Word}

/-- The steps before the first copy; answers the tables of `templates`. -/
def prepare (roots : List Word) (advisories : Advisories) (templates : List DispatchTemplate) :
    SessionM DispatchTables := do
  gather roots
  reserveBuffer advisories
  prepareTables templates

/-- The steps from the first copy to the archive, with `tables`. -/
def complete (tables : TableProvider) : SessionM Unit := do
  copyMutable tables
  copyReadOnly tables
  wire
  relocate

/-- The session `s` is ready for the copies of what was gathered in `g`. -/
structure Prepared (h : Heap) (g : Session) (tables : TableProvider) (low : Nat) (below : Nat → Word)
    (s : Session) : Prop where
  grounds : Grounds h g tables low
  grounded : Grounded h g
  settled : Settled h g
  sifted : Sifted h g
  underway : Underway g tables low below .mutable .reserved (s.books.sources .mutable) s

/-- Tables of `templates` are put into the buffer, and the books of `g` stay. -/
theorem triple_prepareTables_prepared (heap : h.Sound) (hg : g.Sound) (hstage : g.stage = .gathered)
    (hc : Cataloged h g) (hgrounded : Grounded h g) (hsettled : Settled h g) (hsifted : Sifted h g)
    {a : Advisories} {o : Output} (hfresh : Fresh g a o) (templates : List DispatchTemplate) :
    Triple (· = { g with output? := some o, stage := .reserved }) (prepareTables templates)
      (fun tables s => (∃ low below, Prepared h g tables.provider low below s) ∧ s.books = g.books ∧
        ∀ kind target table, tables.provider kind target = some table → ∃ t ∈ templates, t.kind = kind)
      (fun _ _ => True) := by
  have hnone := (fills_reserved hg hstage hc.filed.plain o).2
  refine ((triple_prepareTables_filling hg hstage hc.filed.plain hfresh templates).and
    (triple_prepareTables (o := o) rfl hfresh.arena hfresh.length templates)).conseq (fun _ h => ⟨h, h⟩) ?_
    fun _ _ _ => trivial
  rintro _ s ⟨⟨hs, hstage', ot, placed, hmap, rfl, hholds, hbottom, hfilling⟩, _, _, ⟨-, stats, rfl⟩, -⟩
  have hplaced : ∀ kind target table,
      (DispatchTables.ofPlaced placed .empty).provider kind target = some table →
        ∃ t, (t, table) ∈ placed ∧ t.kind = kind := fun kind target table htable =>
    DispatchTables.mem_of_last? ((DispatchTables.provider_ofPlaced ..).symm.trans htable)
  refine ⟨⟨_, _, ⟨heap, hc, fun kind target table htable => ?_⟩, hgrounded, hsettled, hsifted,
    ⟨?_, hfilling, fun w _ => hnone w, hc.filed.plain, fun a v hv => ?_⟩⟩, rfl,
    fun kind target table htable => ?_⟩
  · obtain ⟨t, hmem, -⟩ := hplaced kind target table htable
    obtain ⟨hplace, hlow, hhigh, -⟩ := hholds _ hmem
    refine ⟨_, hbottom ▸ hplace, Nat.dvd_mul_right .., hlow, ?_⟩
    unfold wordBytes at *
    omega
  · exact Sound.copying hs rfl ((hs.filled _ rfl).reserved rfl)
  · have hfree := hsifted.unclaimed a
    rw [show g.catalog.sourceOf? a = some v from hv] at hfree
    cases hfree
  · obtain ⟨t, hmem, hkind⟩ := hplaced kind target table htable
    exact ⟨t, by rw [← hmap]; exact List.mem_map_of_mem hmem, hkind⟩

/-- What was gathered in full is ready for its copies. -/
theorem triple_prepare {s₀ : Session} (heap : h.Sound) (hs₀ : s₀.Sound) (hc₀ : Cataloged h s₀)
    (hg₀ : Grounded h s₀) (hsettled₀ : Settled h s₀) (hsifted₀ : Sifted h s₀) (roots : List Word)
    (advisories : Advisories) (templates : List DispatchTemplate) :
    Triple (· = s₀) (prepare roots advisories templates)
      (fun tables s => ∃ g, (∃ low below, Prepared h g tables.provider low below s) ∧ s.books = g.books ∧
        ∀ kind target table, tables.provider kind target = some table → ∃ t ∈ templates, t.kind = kind)
      (fun _ _ => True) := by
  rintro r rfl
  unfold prepare
  simp only [wp_bind]
  refine ((triple_gather_gathered heap hs₀ hc₀ hg₀ roots).and
    (triple_gather_sifted heap hc₀ hg₀ hsifted₀ roots)).use ⟨rfl, rfl⟩ ?_ fun _ _ _ => trivial
  rintro _ r₁ ⟨hgathered, hsifted₁⟩
  have hsettled₁ : Settled h r₁.session := hgathered.settled.2 hsettled₀
  refine (triple_reserveBuffer hgathered.sound.settings advisories).use rfl ?_ fun _ _ _ => trivial
  rintro _ r₂ ⟨-, o, hfresh, hr₂⟩
  exact (triple_prepareTables_prepared heap hgathered.sound hgathered.stage hgathered.cataloged
    hgathered.grounded hsettled₁ hsifted₁ hfresh templates).use hr₂ (fun _ _ h => ⟨_, h⟩) fun _ _ h => h

/-- From the first copy on there may be too little space, but there is no defect. -/
theorem triple_complete (hp : Prepared h g tables low below s) (hsub : Regenerated g)
    (hheads : ∀ w e t, g.catalog.get? w = some e → e.isCopied = true → h.Holds w 0 t →
      ∀ target, tables e.kind target = none) :
    Triple (· = s) (complete tables) (fun _ _ => True) Harmless := by
  rintro r rfl
  unfold complete
  simp only [wp_bind]
  refine (triple_copyMutable_halfway hp.grounds).use hp.underway (fun _ r₁ h₁ => ?_) fun _ _ h => h
  refine (triple_copyReadOnly_settled hp.grounds hp.sifted hsub).use h₁ ?_ fun _ _ h => h
  rintro _ r₂ ⟨⟨hs₂, hstage₂, hfilling₂⟩, hall₂⟩
  obtain ⟨o, ha⟩ := Assembled.of_filling hp.grounds.heap hp.grounds.cataloged hp.grounded hs₂ hfilling₂
  have hripe : Ripe h g tables low below r₂.session o :=
    ⟨ha, hstage₂, hp.grounds, hp.settled, hp.sifted, hsub, hall₂, hheads⟩
  refine hripe.triple_wire.use rfl ?_ fun _ _ h => h
  rintro _ r₃ ⟨o₁, hl, hr₃⟩
  refine (triple_relocate (s := r₃.session) (o := o₁) (hr₃ ▸ hl.sound) (by rw [hr₃]) (by rw [hr₃])).use rfl
    (fun _ _ _ => trivial) ?_
  rintro f r₄ ⟨i, hoffends, -⟩
  rw [hr₃] at hoffends
  exact absurd hoffends (hripe.not_offends hl i)

end SessionM

namespace Session

/-- Whatever the heap `h`, the `roots`, the `advisories` and the `templates` are: once objects are
    gathered, the buffer is reserved and the tables are prepared, the steps that are left do not
    fail by a defect of the build, if each replaced object is replaced by one that is archived or
    nulled, and no pointer field of an archived object lies where its table goes. -/
theorem complete_harmless {h : Heap} (made : h.Made) {reservations : Reservations} {settings : Settings}
    {mapped? : Option (AddrRange .mapped)} {alive : Bool} {s₀ s : Session}
    (hbegin : begin h.toHost reservations settings mapped? alive = .ok s₀) {roots : List Word}
    {advisories : Advisories} {templates : List DispatchTemplate} {tables : DispatchTables}
    (hok : ((prepare roots advisories templates).perform s₀).1 = .ok tables)
    (hs : ((prepare roots advisories templates).perform s₀).2.session = s)
    (hsub : ∀ former ∈ s.replaced, ∃ substitute e, h.toHost.substitute? former = some substitute ∧
      s.catalog.get? substitute = some e ∧ (e.disposition = .copy ∨ e.disposition = .nullOut))
    (hheads : ∀ w e t, s.catalog.get? w = some e → e.isCopied = true → h.Holds w 0 t →
      ∀ template ∈ templates, template.kind ≠ e.kind) {f : Failure}
    (hf : ((complete tables.provider).perform s).1 = .error f) : f.isDefect = false := by
  have hs₀ := sound_begin hbegin
  obtain ⟨-, d?, -, rfl⟩ := begin_eq_ok hbegin
  obtain ⟨hc₀, hg₀, hsettled₀⟩ := cataloged_fresh h reservations settings d?
  subst hs
  obtain ⟨tables', htables', g, ⟨low, below, hp⟩, hbooks, hkinds⟩ | ⟨_, herror, -⟩ :=
    (triple_prepare made.sound hs₀ hc₀ hg₀ hsettled₀ (sifted_fresh h reservations settings d?) roots
      advisories templates).perform rfl
  · obtain rfl := Except.ok.inj (hok.symm.trans htables')
    have hcatalog : g.catalog = ((prepare roots advisories templates).perform
      (fresh h.toHost reservations settings d?)).2.session.catalog := (congrArg Books.catalog hbooks).symm
    have hreplaced : g.replaced = ((prepare roots advisories templates).perform
      (fresh h.toHost reservations settings d?)).2.session.replaced := (congrArg Books.replaced hbooks).symm
    -- both conditions were read off the prepared session; they hold of the gathered one as well
    have hregenerated : Regenerated g := by
      intro former hmem
      obtain ⟨substitute, e, hsubstitute, he, hfate⟩ := hsub former (hreplaced ▸ hmem)
      refine ⟨substitute, e, by rw [hp.grounds.cataloged.host]; exact hsubstitute, hcatalog ▸ he, ?_⟩
      rcases hfate with hfate | hfate <;> rw [hfate] <;> decide
    have hclear : ∀ w e t, g.catalog.get? w = some e → e.isCopied = true → h.Holds w 0 t →
        ∀ target, tables.provider e.kind target = none := by
      intro w e t he hcopied hholds target
      refine Option.eq_none_iff_forall_ne_some.2 fun table htable => ?_
      obtain ⟨template, hmem, hkind⟩ := hkinds _ _ _ htable
      exact hheads w e t (hcatalog ▸ he) hcopied hholds template hmem hkind
    obtain ⟨_, hdone, -⟩ | ⟨f', herror, hharmless⟩ := (triple_complete hp hregenerated hclear).perform rfl
    · exact nomatch hdone.symm.trans hf
    · obtain rfl := Except.error.inj (herror.symm.trans hf)
      exact hharmless
  · exact nomatch herror.symm.trans hok

/-- The session over the mixed heap with a table in the buffer that no space was reserved for. -/
def crowdedPrepared : Except Failure DispatchTables × Run :=
  (prepare [0x100000000010] ⟨0, 0, 0⟩ [⟨.procedure, [11, 12]⟩]).perform mixedSession

/-- That table. -/
def crowdedTables : DispatchTables := crowdedPrepared.1.toOption.get (by decide +kernel)

/-- No object of the mixed heap has a pointer field in front. -/
theorem mixedHeap_not_holds : ∀ w t, ¬mixedHeap.Holds w 0 t := by
  rintro w t ⟨o, ho, hfield, -⟩
  have hnone : ∀ x ∈ mixedHeap.objects.toList, 0 ∉ x.2.fields := by decide +kernel
  exact hnone (w, o) (Std.TreeMap.mem_toList_iff_getElem?_eq_some.2 ho) hfield

/-- There is no space left for the second object. -/
theorem complete_harmless_crowded :
    ((complete crowdedTables.provider).perform crowdedPrepared.2.session).1 =
      .error (.error (.outOfSpace .mutable 8 0)) ∧
    Failure.isDefect (.error (.outOfSpace .mutable 8 0)) = false := by
  have hbegin : mixedBegun = .ok mixedSession := eq_ok_of_toOption (Option.some_get _).symm
  have hok : ((prepare [0x100000000010] ⟨0, 0, 0⟩ [⟨.procedure, [11, 12]⟩]).perform mixedSession).1 =
      .ok crowdedTables := eq_ok_of_toOption (Option.some_get _).symm
  have hfull : ((complete crowdedTables.provider).perform crowdedPrepared.2.session).1 =
      .error (.error (.outOfSpace .mutable 8 0)) := by decide +kernel
  have hreplaced : crowdedPrepared.2.session.replaced = #[0x100000000040] := by decide +kernel
  have hsubstitute : mixedHeap.toHost.substitute? 0x100000000040 = some 0x100000000038 := by decide +kernel
  have hfate : (crowdedPrepared.2.session.catalog.get? 0x100000000038).map (·.disposition) = some .copy := by
    decide +kernel
  have hsub : ∀ former ∈ crowdedPrepared.2.session.replaced, ∃ substitute e,
      mixedHeap.toHost.substitute? former = some substitute ∧
      crowdedPrepared.2.session.catalog.get? substitute = some e ∧
      (e.disposition = .copy ∨ e.disposition = .nullOut) := by
    intro former hformer
    obtain rfl : former = 0x100000000040 := by
      rw [show crowdedPrepared.2.session.replaced = _ from hreplaced] at hformer
      simpa using hformer
    obtain ⟨e, he, hcopy⟩ := Option.map_eq_some_iff.1 hfate
    exact ⟨0x100000000038, e, hsubstitute, he, .inl hcopy⟩
  exact ⟨hfull, complete_harmless mixedHeap_made hbegin hok (by rw [crowdedPrepared]) hsub
    (fun w e t _ _ hholds => absurd hholds (mixedHeap_not_holds w t)) hfull⟩

end Session

end SnapshotArchive
