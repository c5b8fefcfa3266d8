import Mathlib.Tactic.Common
import SnapshotArchive.Proofs.Regions

/-!
What the copies hold before they are wired. From the reservation on the books of a session only gain the
places of copies and entries for replaced objects. Each copy holds the words it started out with, the
marked slots are the first words of those that start with a table, and what lies below the copies stays.
-/

namespace SnapshotArchive

namespace Session

/-- The object at `w` has an entry `e` of its own and a copy at `target`. -/
def HasCopy (s : Session) (w : Word) (e : SourceEntry) (target : Addr .buffer) : Prop :=
  s.catalog.get? w = some e ∧ e.isAlias = false ∧ e.output? = some target

/-- The entry of a word is its own, or that of the object that replaced it, and so on. -/
inductive Leads (s : Session) : Word → Prop where
  | own {w : Word} {e : SourceEntry} (entry : s.catalog.get? w = some e) (plain : e.isAlias = false) :
      Leads s w
  | replaced {w substitute : Word} {x : SourceEntry} (former : w ∈ s.replaced)
      (by_ : s.host.substitute? w = some substitute) (entry : s.catalog.get? substitute = some x)
      (settled : x.resolution?.isSome = true) (standIn : s.catalog.get? w = some (x.standIn w))
      (rest : Leads s substitute) : Leads s w

/-- Session `s` has the books of `g`, with some copies made and some replaced objects entered. -/
structure Fills (g s : Session) : Prop where
  host : s.host = g.host
  settings : s.settings = g.settings
  reservations : s.reservations = g.reservations
  dependency : s.dependency? = g.dependency?
  estimate : s.estimate = g.estimate
  lists : ∀ kind, s.copyList kind = g.copyList kind
  replaced : s.replaced = g.replaced
  kept : ∀ w e, g.catalog.get? w = some e →
    ∃ output?, s.catalog.get? w = some { e with output? := output? }
  own : ∀ w e, s.catalog.get? w = some e → e.isAlias = false →
    g.catalog.get? w = some { e with output? := none }
  leads : ∀ w e, s.catalog.get? w = some e → s.Leads w

/-- The copies of `s` hold what they started out with, at or above `low`; below, the buffer holds
    `below`. -/
structure Contents (tables : TableProvider) (low : Nat) (below : Nat → Word) (s : Session)
    (o : Output) : Prop where
  bottom : o.buffer.bottom = s.reservations.bottom
  top : low ≤ o.arena.top
  below : ∀ i, 8 * i < low → o.buffer.words.read i = below i
  above : ∀ w e target, s.HasCopy w e target → low ≤ target.toNat - o.buffer.bottom.toNat
  words : ∀ w e target, s.HasCopy w e target → ∀ j, j < e.size / wordBytes →
    o.buffer.words.read ((target.toNat - o.buffer.bottom.toNat) / wordBytes + j) =
      copiedWord tables s.host e target j
  marks : ∀ i, o.pointers.has i = true ↔ ∃ w e target, s.HasCopy w e target ∧
    i = (target.toNat - o.buffer.bottom.toNat) / wordBytes ∧ startsWithTable tables e target = true

/-- The books of `s` are those of `g`, and the copies hold what they started out with. -/
def Filling (g : Session) (tables : TableProvider) (low : Nat) (below : Nat → Word)
    (s : Session) : Prop :=
  Fills g s ∧ ∃ o, s.output? = some o ∧ Contents tables low below s o

variable {g s s' : Session} {tables : TableProvider} {low : Nat} {below : Nat → Word} {o o' : Output}

theorem Leads.mono {w : Word} (h : s.Leads w) (hhost : s'.host = s.host)
    (hreplaced : s'.replaced = s.replaced)
    (hkeep : ∀ v x, s.catalog.get? v = some x → x.resolution?.isSome = true →
      s'.catalog.get? v = some x)
    (hown : ∀ v x, s.catalog.get? v = some x → x.isAlias = false →
      ∃ x', s'.catalog.get? v = some x' ∧ x'.isAlias = false) : s'.Leads w := by
  induction h with
  | own entry plain =>
    obtain ⟨x', hx', hplain⟩ := hown _ _ entry plain
    exact .own hx' hplain
  | @replaced w substitute x former by_ entry settled standIn _ ih =>
    exact .replaced (by rw [hreplaced]; exact former) (by rw [hhost]; exact by_)
      (hkeep _ _ entry settled) settled (hkeep _ _ standIn (by
        unfold SourceEntry.resolution? at settled ⊢
        unfold SourceEntry.standIn
        dsimp only
        split at settled <;> simp_all)) ih

theorem Fills.refl (hnone : ∀ w, ¬g.catalog.Placed w)
    (hplain : ∀ w e, g.catalog.get? w = some e → e.isAlias = false) : Fills g g where
  host := rfl
  settings := rfl
  reservations := rfl
  dependency := rfl
  estimate := rfl
  lists _ := rfl
  replaced := rfl
  kept w e he := ⟨e.output?, he⟩
  own w e he _ := by
    have hout : e.output? = none := by
      cases ho : e.output? with
      | none => rfl
      | some t => exact absurd ⟨e, he, by rw [ho]; rfl⟩ (hnone w)
    rw [he, ← hout]
  leads w e he := .own he (hplain w e he)

/-- The catalog alone counts, as far as the session is looked at. -/
theorem Fills.congr (h : Fills g s) (hhost : s'.host = s.host) (hsettings : s'.settings = s.settings)
    (hreservations : s'.reservations = s.reservations) (hdependency : s'.dependency? = s.dependency?)
    (hestimate : s'.estimate = s.estimate) (hlists : ∀ kind, s'.copyList kind = s.copyList kind)
    (hreplaced : s'.replaced = s.replaced) (hcatalog : ∀ w, s'.catalog.get? w = s.catalog.get? w) :
    Fills g s' where
  host := hhost.trans h.host
  settings := hsettings.trans h.settings
  reservations := hreservations.trans h.reservations
  dependency := hdependency.trans h.dependency
  estimate := hestimate.trans h.estimate
  lists kind := (hlists kind).trans (h.lists kind)
  replaced := hreplaced.trans h.replaced
  kept w e he := by rw [hcatalog]; exact h.kept w e he
  own w e he := by rw [hcatalog] at he; exact h.own w e he
  leads w e he := by
    rw [hcatalog] at he
    exact (h.leads w e he).mono hhost hreplaced (fun v x hx _ => (hcatalog v).trans hx)
      fun v x hx ha => ⟨x, (hcatalog v).trans hx, ha⟩

/-- More may be allocated from `o` to `o'`, as long as no marks change. -/
theorem Contents.grows (h : Contents tables low below s o) (hgrows : o.Grows o')
    (hmarks : ∀ i, o'.pointers.has i = o.pointers.has i) (hhost : s'.host = s.host)
    (hreservations : s'.reservations = s.reservations)
    (hcatalog : ∀ w, s'.catalog.get? w = s.catalog.get? w) (hs : s.Filled o) :
    Contents tables low below s' o' := by
  have hcopy : ∀ w e target, s'.HasCopy w e target ↔ s.HasCopy w e target := fun w e target => by
    unfold HasCopy
    rw [hcatalog]
  obtain ⟨t, hlow, -, -, harena⟩ := hgrows.arena
  refine ⟨?_, ?_, fun i hi => ?_, fun w e target hc => ?_, fun w e target hc j hj => ?_, fun i => ?_⟩
  · rw [hgrows.bottom, hreservations]
    exact h.bottom
  · rw [harena, Arena.top_advance]
    exact Nat.le_trans h.top hlow
  · rw [hgrows.words i (Nat.lt_of_lt_of_le hi h.top)]
    exact h.below i hi
  · rw [hgrows.bottom]
    exact h.above w e target ((hcopy ..).1 hc)
  · obtain ⟨he, halias, ht⟩ := (hcopy ..).1 hc
    obtain ⟨offset, hoffset, hdvd, -, hend⟩ := hs.layout.inside w e target he ht
    rw [hgrows.bottom, hgrows.words _ (by unfold wordBytes at *; omega), hhost]
    exact h.words w e target ⟨he, halias, ht⟩ j hj
  · rw [hmarks, h.marks, hgrows.bottom]
    simp only [hcopy]

/-- A copy of `w` is made at `target`; nothing else changes. -/
theorem Fills.copied (h : Fills g s) {w : Word} {e : SourceEntry} {target : Addr .buffer}
    {catalog : Catalog} {stats : Stats} (he : s.catalog.get? w = some e) (hcopied : e.isCopied = true)
    (hfresh : e.output? = none) (hplain : e.isAlias = false)
    (hget : ∀ v, catalog.get? v = if w = v then some { e with output? := some target }
      else s.catalog.get? v) :
    Fills g { s with output? := o', catalog := catalog, stats := stats } := by
  have hs : Fills g { s with output? := o', stats := stats } :=
    h.congr rfl rfl rfl rfl rfl (fun kind => by cases kind <;> rfl) rfl fun _ => rfl
  refine { hs with
    lists := fun kind => by cases kind; exact hs.lists .mutable; exact hs.lists .readOnly
    kept := fun v x hx => ?_, own := fun v x hx ha => ?_, leads := fun v x hx => ?_ }
  · obtain ⟨out, hout⟩ := h.kept v x hx
    change ∃ _, catalog.get? v = _
    rw [hget]
    split
    · rename_i hw
      rw [← hw, he] at hout
      cases hout
      exact ⟨some target, rfl⟩
    · exact ⟨out, hout⟩
  · change catalog.get? v = _ at hx
    rw [hget] at hx
    split at hx
    · rename_i hw
      cases hx
      rw [← hw]
      exact h.own w e he hplain
    · exact h.own v x hx ha
  · have hbefore : ∃ y, s.catalog.get? v = some y := by
      change catalog.get? v = _ at hx
      rw [hget] at hx
      split at hx
      · rename_i hw
        exact ⟨e, hw ▸ he⟩
      · exact ⟨x, hx⟩
    obtain ⟨y, hy⟩ := hbefore
    -- no reference can have led to this object yet: its entry had no resolution
    refine (h.leads v y hy).mono rfl rfl (fun u z hz hsome => ?_) fun u z hz ha => ?_
    · change catalog.get? u = _
      rw [hget, if_neg]
      · exact hz
      · rintro rfl
        obtain rfl : e = z := Option.some_inj.1 (he.symm.trans hz)
        unfold SourceEntry.resolution? at hsome
        unfold SourceEntry.isCopied at hcopied
        rw [eq_of_beq hcopied, hfresh] at hsome
        cases hsome
    · change ∃ _, catalog.get? u = _ ∧ _
      rw [hget]
      split
      · exact ⟨_, rfl, hplain⟩
      · exact ⟨z, hz, ha⟩

/-- Once `w` is copied to `target` it has that copy, and the others have those that they had. -/
theorem hasCopy_copied {w v : Word} {e x : SourceEntry} {target a : Addr .buffer}
    (he : s.catalog.get? w = some e) (hfresh : e.output? = none) (hplain : e.isAlias = false)
    (hget : ∀ v, s'.catalog.get? v = if w = v then some { e with output? := some target }
      else s.catalog.get? v) :
    s'.HasCopy v x a ↔ s.HasCopy v x a ∨ v = w ∧ x = { e with output? := some target } ∧ a = target := by
  unfold HasCopy
  rw [hget]
  by_cases hw : w = v
  · subst hw
    rw [if_pos rfl, he]
    constructor
    · rintro ⟨hx, -, ha⟩
      cases hx
      cases ha
      exact Or.inr ⟨rfl, rfl, rfl⟩
    · rintro (⟨hx, -, ha⟩ | ⟨-, rfl, rfl⟩)
      · cases hx
        rw [hfresh] at ha
        cases ha
      · exact ⟨rfl, hplain, rfl⟩
  · rw [if_neg hw]
    exact ⟨Or.inl, fun hor => hor.elim id fun hnew => absurd hnew.1.symm hw⟩

/-- The object at `w` is copied: its copy holds what it starts out with. -/
theorem Contents.copied (h : Contents tables low below s o) (hs : s.Filled o) {w : Word}
    {e : SourceEntry} {offset : Nat} {target : Addr .buffer} {catalog : Catalog} {stats : Stats}
    (he : s.catalog.get? w = some e) (hfresh : e.output? = none) (hplain : e.isAlias = false)
    (hdone : CopyDone tables s.host e o o' offset target)
    (hget : ∀ v, catalog.get? v = if w = v then some { e with output? := some target }
      else s.catalog.get? v) :
    Contents tables low below { s with output? := some o', catalog := catalog, stats := stats } o' := by
  obtain ⟨t, hlow, -, -, harena⟩ := hdone.grows.arena
  have htop := h.top
  have hoffset : target.toNat - o.buffer.bottom.toNat = offset := by
    rw [hdone.place, Nat.add_sub_cancel_left]
  have hcopy : ∀ v x a, ({ s with output? := some o', catalog := catalog, stats := stats } :
      Session).HasCopy v x a ↔
        s.HasCopy v x a ∨ v = w ∧ x = { e with output? := some target } ∧ a = target := fun _ _ _ =>
    hasCopy_copied he hfresh hplain hget
  refine ⟨hdone.grows.bottom.trans h.bottom, ?_, fun i hi => ?_, fun v x a hc => ?_,
    fun v x a hc j hj => ?_, fun i => ?_⟩
  · rw [harena, Arena.top_advance]
    omega
  · rw [hdone.grows.words i (by omega)]
    exact h.below i hi
  · rw [hdone.grows.bottom]
    rcases (hcopy ..).1 hc with hc | ⟨-, -, rfl⟩
    · exact h.above v x a hc
    · rw [hoffset]
      exact Nat.le_trans htop hdone.low
  · rw [hdone.grows.bottom]
    rcases (hcopy ..).1 hc with hc | ⟨-, rfl, rfl⟩
    · obtain ⟨off, hoff, hdvd, -, hend⟩ := hs.layout.inside v x a hc.1 hc.2.2
      rw [hdone.grows.words _ (by unfold wordBytes at *; omega)]
      exact h.words v x a hc j hj
    · rw [hoffset]
      exact hdone.words j hj
  · rw [hdone.marks, Bool.or_eq_true, h.marks, Bool.and_eq_true, decide_eq_true_eq,
      hdone.grows.bottom]
    simp only [hcopy]
    constructor
    · rintro (⟨v, x, a, hc, hi, htable⟩ | ⟨hi, htable⟩)
      · exact ⟨v, x, a, Or.inl hc, hi, htable⟩
      · exact ⟨w, _, target, Or.inr ⟨rfl, rfl, rfl⟩, by rw [hoffset]; exact hi, htable⟩
    · rintro ⟨v, x, a, hc | ⟨-, rfl, rfl⟩, hi, htable⟩
      · exact Or.inl ⟨v, x, a, hc, hi, htable⟩
      · exact Or.inr ⟨by rw [hoffset] at hi; exact hi, htable⟩

end Session

namespace SessionM

open Session

variable {g s s' : Session} {tables : TableProvider} {low : Nat} {below : Nat → Word}

theorem CopyStep.filling {w : Word} {kind : RegionKind} {stage : Stage} {rest : List Word}
    (hstep : CopyStep tables w s s') (hcopying : Copying kind stage (w :: rest) s)
    (h : Filling g tables low below s) : Filling g tables low below s' := by
  obtain ⟨hfills, o, ho, hcontents⟩ := h
  obtain ⟨e, o₁, o', offset, target, catalog, stats, ho₁, he, hcopied, hfresh, hdone, hget, rfl⟩ := hstep
  obtain rfl : o = o₁ := Option.some_inj.1 (ho.symm.trans ho₁)
  obtain ⟨done, hsplit, -⟩ := hcopying.done
  obtain ⟨x, hx, -, hplain, -⟩ := hcopying.sound.books.listed kind w (by rw [hsplit]; simp)
  obtain rfl : e = x := Option.some_inj.1 (he.symm.trans hx)
  exact ⟨hfills.copied he hcopied hfresh hplain hget, o', rfl,
    hcontents.copied (hcopying.sound.filled o ho) he hfresh hplain hdone hget⟩

theorem CopyHalt.filling {w : Word} {f : Failure} (hhalt : CopyHalt tables w s f s')
    (hnone : ∀ kind target, tables kind target = none) (hs : s.Sound) (h : Filling g tables low below s) :
    Filling g tables low below s' := by
  rcases hhalt with ⟨rfl, -⟩ | ⟨e, o, -, ho, o', catalog, hstop, hget, rfl⟩
  · exact h
  · obtain ⟨hfills, o₁, ho₁, hcontents⟩ := h
    obtain rfl : o = o₁ := Option.some_inj.1 (ho.symm.trans ho₁)
    exact ⟨hfills.congr rfl rfl rfl rfl rfl (fun kind => by cases kind <;> rfl) rfl hget, o', rfl,
      hcontents.grows hstop.grows (hstop.plain hnone) rfl rfl hget (hs.filled o ho)⟩

theorem SwitchStep.filling (hstep : SwitchStep s s') (hs : s.Sound) (h : Filling g tables low below s) :
    Filling g tables low below s' := by
  obtain ⟨o, arena, ho, harena, rfl⟩ := hstep
  obtain ⟨hfills, o₁, ho₁, hcontents⟩ := h
  obtain rfl : o = o₁ := Option.some_inj.1 (ho.symm.trans ho₁)
  obtain ⟨hc, hc', ha', -, -, htop, hstart⟩ := Arena.startReadOnly_eq_ok (hs.filled o ho).arena harena
  refine ⟨hfills.congr rfl rfl rfl rfl rfl (fun kind => by cases kind <;> rfl) rfl fun _ => rfl, _, rfl,
    { hcontents with top := ?_ }⟩
  have hle := hcontents.top
  have hregion := ha'.region_top_le hc' .mutable
  unfold Arena.top Arena.currentRegion at hle
  rw [hc] at hle
  exact Nat.le_trans hle (Nat.le_trans htop hregion)

theorem Metered.filling (hstep : Metered s s') (h : Filling g tables low below s) :
    Filling g tables low below s' := by
  obtain ⟨o, ho, rfl⟩ := hstep
  obtain ⟨hfills, o₁, ho₁, hcontents⟩ := h
  obtain rfl : o = o₁ := Option.some_inj.1 (ho.symm.trans ho₁)
  exact ⟨hfills.congr rfl rfl rfl rfl rfl (fun kind => by cases kind <;> rfl) rfl fun _ => rfl, _, rfl,
    { hcontents with }⟩

/-- An entry `x` stays as it was where `former` gets one. -/
theorem AliasStep.get?_of_some {former substitute w : Word} {x : SourceEntry}
    (hstep : AliasStep former substitute s s') (hx : s.catalog.get? w = some x) :
    s'.catalog.get? w = some x := by
  obtain ⟨e, -, -, -, hnew, rfl⟩ := hstep
  change (s.catalog.put (e.standIn former)).get? w = _
  rw [Catalog.get?_put, if_neg]
  · exact hx
  · rintro rfl
    exact nomatch hnew.symm.trans hx

/-- What is new is the entry of `former`, a stand-in of that of `substitute`. -/
theorem AliasStep.get?_new {former substitute w : Word} {x : SourceEntry}
    (hstep : AliasStep former substitute s s') (hx : s'.catalog.get? w = some x) :
    s.catalog.get? w = some x ∨
      w = former ∧ ∃ e, s.catalog.get? substitute = some e ∧ x = e.standIn former := by
  obtain ⟨e, -, he, -, -, rfl⟩ := hstep
  change (s.catalog.put (e.standIn former)).get? w = _ at hx
  rw [Catalog.get?_put] at hx
  split at hx
  · rename_i hw
    exact .inr ⟨hw.symm, e, he, (Option.some_inj.1 hx).symm⟩
  · exact .inl hx

theorem AliasStep.plain {former substitute w : Word} {x : SourceEntry}
    (hstep : AliasStep former substitute s s') (hx : s'.catalog.get? w = some x)
    (ha : x.isAlias = false) : s.catalog.get? w = some x := by
  rcases hstep.get?_new hx with hold | ⟨-, e, -, rfl⟩
  · exact hold
  · cases ha

/-- A replaced object `former` has no copy of its own. -/
theorem AliasStep.hasCopy {former substitute w : Word} {x : SourceEntry} {a : Addr .buffer}
    (hstep : AliasStep former substitute s s') : s'.HasCopy w x a ↔ s.HasCopy w x a :=
  ⟨fun ⟨hx, ha, ht⟩ => ⟨hstep.plain hx ha, ha, ht⟩, fun ⟨hx, ha, ht⟩ => ⟨hstep.get?_of_some hx, ha, ht⟩⟩

theorem AliasStep.filling {former substitute : Word} (hstep : AliasStep former substitute s s')
    (hmem : former ∈ s.replaced) (hsub : s.host.substitute? former = some substitute)
    (h : Filling g tables low below s) : Filling g tables low below s' := by
  have hstep' := hstep
  obtain ⟨e, outcome, he, hout, hnew, rfl⟩ := hstep'
  obtain ⟨hfills, o, ho, hcontents⟩ := h
  refine ⟨{ hfills with
    lists := fun kind => by cases kind; exact hfills.lists .mutable; exact hfills.lists .readOnly
    kept := fun w x hx => ?_, own := fun w x hx ha => hfills.own w x (hstep.plain hx ha) ha
    leads := fun w x hx => ?_ }, o, ho,
    ⟨hcontents.bottom, hcontents.top, hcontents.below, fun w x a hc => hcontents.above w x a (hstep.hasCopy.1 hc),
      fun w x a hc => hcontents.words w x a (hstep.hasCopy.1 hc), fun i => ?_⟩⟩
  · obtain ⟨out, hx'⟩ := hfills.kept w x hx
    exact ⟨out, hstep.get?_of_some hx'⟩
  · have hmono : ∀ v, s.Leads v →
        Leads { s with catalog := s.catalog.put (e.standIn former) } v := fun v hv =>
      hv.mono rfl rfl (fun _ _ hz _ => hstep.get?_of_some hz) fun _ z hz ha => ⟨z, hstep.get?_of_some hz, ha⟩
    rcases hstep.get?_new hx with hold | ⟨rfl, -⟩
    · exact hmono w (hfills.leads w x hold)
    · refine .replaced hmem hsub (hstep.get?_of_some he) (by rw [hout]; rfl) ?_
        (hmono _ (hfills.leads substitute e he))
      change (s.catalog.put _).get? _ = _
      rw [Catalog.get?_put]
      exact if_pos rfl
  · rw [hcontents.marks]
    simp only [hstep.hasCopy]

end SessionM

end SnapshotArchive
