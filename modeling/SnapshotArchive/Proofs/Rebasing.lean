import SnapshotArchive.Proofs.WiringTwice

/-!
Archives for different base addresses. Two builds that differ in the base address alone make archives that
differ in the marked words alone, and each of these by the difference of the bases.
-/

namespace SnapshotArchive

open Session SessionM

theorem Addr.spans_iff {bottom : Addr .buffer} {n : Nat} {w : Word} (hfits : bottom.toNat + n < addressLimit) :
    bottom.Spans n w ↔ (w - bottom.word).toNat < n := by
  have hw := w.toNat_lt
  have hdistance : (w - bottom.word).toNat = (2 ^ 64 - bottom.toNat + w.toNat) % 2 ^ 64 :=
    UInt64.toNat_sub w bottom.word
  unfold Spans addressLimit at *
  omega

theorem Addr.Spans.mono {bottom : Addr .buffer} {n m : Nat} {w : Word} (h : bottom.Spans n w) (hnm : n ≤ m) :
    bottom.Spans m w := ⟨h.1, Nat.lt_of_lt_of_le h.2 (Nat.add_le_add_left hnm _)⟩

namespace Pairing

variable {p : Pairing} {top n length : Nat} {v v' : Word}

/-- Words `v` and `v'` at level places lie in the used buffers on both sides or on neither. -/
theorem Level.spans (hl : p.Level ⟨v⟩ ⟨v'⟩) (hfits : p.bottom.toNat + n < addressLimit)
    (hfits' : p.bottom'.toNat + n < addressLimit) : p.bottom'.Spans n v' ↔ p.bottom.Spans n v := by
  rw [Addr.spans_iff hfits, Addr.spans_iff hfits', hl]

/-- Pointers `v` and `v'` to the same place lie in the used buffers on both sides or on neither, and
    at the same distance from the bottoms. -/
theorem Points.spans (hpoints : p.Points top v v') (htop : top ≤ n) (hclear : p.Clear length)
    (hn : n ≤ length) (hfits : p.bottom.toNat + length < addressLimit)
    (hfits' : p.bottom'.toNat + length < addressLimit) :
    (p.bottom'.Spans n v' ↔ p.bottom.Spans n v) ∧
      (p.bottom.Spans n v → v'.toNat + p.bottom.toNat = v.toNat + p.bottom'.toNat) := by
  rcases hpoints with ⟨k, hleft, hright, hlow, hhigh⟩ | hmate
  · unfold Addr.Spans
    omega
  · by_cases hspan : p.bottom.Spans n v ∨ p.bottom'.Spans n v'
    · have hl := hclear.mate v v' hmate (hspan.imp (·.mono hn) (·.mono hn))
      have hiff := hl.spans (n := n) (by omega) (by omega)
      refine ⟨hiff, fun hv => ?_⟩
      have hright := hl.toNat (n := v.toNat - p.bottom.toNat) (Nat.add_sub_cancel' hv.1).symm (hiff.2 hv).1
      have hlow := hv.1
      change v'.toNat = _ at hright
      omega
    · rw [not_or] at hspan
      exact ⟨iff_of_false hspan.2 hspan.1, fun hv => absurd hv hspan.1⟩

/-- Pointers `v` and `v'` out of the used buffers lead to corresponding objects. -/
theorem Points.mate (hpoints : p.Points top v v') (htop : top ≤ n) (hout : ¬p.bottom.Spans n v) :
    p.Mate v v' := by
  rcases hpoints with ⟨k, hleft, -, -, hhigh⟩ | hmate
  · exact absurd ⟨by omega, by omega⟩ hout
  · exact hmate

end Pairing

/-- The archive `a'` is `a` for another base address: the marked words and the requested range are
    moved from `base` to `base'`, and nothing else changes. -/
structure Session.Archive.Rebased (base base' : Word) (a a' : Archive) : Prop where
  length : a'.buffer.length = a.buffer.length
  mutable : a'.mutable = a.mutable
  readOnly : a'.readOnly = a.readOnly
  pointers : a'.pointers = a.pointers
  moved : ∀ i, a.pointers.has i = true → ((a'.buffer.words.read i).toNat : Int) =
    (a.buffer.words.read i).toNat + (base'.toNat - base.toNat)
  others : ∀ i, a.pointers.has i = false → a'.buffer.words.read i = a.buffer.words.read i
  bottom : (a'.requested.bottom.toNat : Int) = a.requested.bottom.toNat + (base'.toNat - base.toNat)
  top : (a'.requested.top.toNat : Int) = a.requested.top.toNat + (base'.toNat - base.toNat)

/-- Ledgers `l` and `l'` that end with their last pointer are the same if their bits are. -/
theorem Ledger.eq_of_last {l l' : Ledger} (hlast : ∀ n, l.len = n + 1 → l.has n = true)
    (hlast' : ∀ n, l'.len = n + 1 → l'.has n = true) (h : ∀ i, l'.has i = l.has i) : l' = l := by
  have hle : ∀ {l l' : Ledger}, (∀ n, l.len = n + 1 → l.has n = true) → (∀ i, l'.has i = l.has i) →
      l.len ≤ l'.len := by
    intro l l' hlast h
    rcases hlen : l.len with - | n
    · exact Nat.zero_le _
    · exact lt_len_of_has ((h n).trans (hlast n hlen))
  exact ext_has (Nat.le_antisymm (hle hlast' fun i => (h i).symm) (hle hlast h)) h

namespace WiredTwice

variable {p : Pairing} {s s' : Session} {o o' : Output} {v v' w w' : Word}

theorem inUse (h : WiredTwice p s s' o o') (hpoints : p.Points o.arena.top v v') :
    (o'.InUse v' ↔ o.InUse v) ∧ (o.InUse v → v'.toNat + p.bottom.toNat = v.toNat + p.bottom'.toNat) := by
  have hrank : 4 ≤ s.stage.rank := by
    rw [h.stage]
    decide
  have hf := h.sound.filled o h.output
  have hfits := o.buffer.fits
  have hfits' := o'.buffer.fits
  rw [h.bottom] at hfits
  rw [h.bottom', h.length] at hfits'
  have hspans := hpoints.spans (hf.arena.top_le_pack (hf.switched hrank)) h.clear (pack_top_le hf hrank)
    hfits hfits'
  unfold Output.InUse
  rw [h.bottom, h.bottom', h.arena]
  exact hspans

theorem mate (h : WiredTwice p s s' o o') (hpoints : p.Points o.arena.top v v') (hout : ¬o.InUse v) :
    p.Mate v v' := by
  have hf := h.sound.filled o h.output
  refine hpoints.mate (hf.arena.top_le_pack (hf.switched (by rw [h.stage]; decide))) fun hspan => hout ?_
  unfold Output.InUse
  rw [h.bottom]
  exact hspan

/-- Pointers `v` and `v'` to the same place both lead somewhere, or neither does. -/
theorem leads (h : WiredTwice p s s' o o') (hpoints : p.Points o.arena.top v v') :
    s'.LeadsSomewhere o' v' ↔ s.LeadsSomewhere o v := by
  obtain ⟨hiff, -⟩ := h.inUse hpoints
  unfold LeadsSomewhere
  by_cases hin : o.InUse v
  · exact iff_of_true (.inl (hiff.2 hin)) (.inl hin)
  · have hmate := h.mate hpoints hin
    have hdependency := h.dependency
    refine or_congr hiff ?_
    generalize s.dependency? = d? at hdependency ⊢
    generalize s'.dependency? = d?' at hdependency ⊢
    rcases hdependency with hd | -
    · simp [hd.contains v v' hmate]
    · simp

/-- Shifted pointers `w` and `w'` to the same place differ as the bases do. -/
theorem shifts (h : WiredTwice p s s' o o') (hpoints : p.Points o.arena.top v v')
    {r r' : AddrRange .requested} (hs : s.Shifts o r v w) (hs' : s'.Shifts o' r' v' w') :
    (w'.toNat : Int) = w.toNat + (p.base'.toNat - p.base.toNat) := by
  obtain ⟨hiff, hplace⟩ := h.inUse hpoints
  have hrequested := h.requested
  rcases hs with ⟨hin, hshift, -⟩ | @⟨d, hout, hd, hthere, hshift, -⟩
  · rcases hs' with ⟨-, hshift', -⟩ | ⟨hout', -⟩
    · have := hplace hin
      rw [h.bottom] at hshift
      rw [h.bottom'] at hshift'
      omega
    · exact absurd (hiff.2 hin) hout'
  · rcases hs' with ⟨hin', -⟩ | @⟨d', -, hd', hthere', hshift', -⟩
    · exact absurd (hiff.1 hin') hout
    · have hmate := h.mate hpoints hout
      have hdependency := h.dependency
      rw [hd, hd'] at hdependency
      rcases hdependency with hdd | -
      have hoffset := hdd.offset v v' hmate hthere
      have hlow := (AddrRange.contains_iff.1 hthere).1
      have hlow' := (AddrRange.contains_iff.1 hthere').1
      obtain ⟨hbase, -⟩ := hdd.requested
      obtain ⟨hbase', -⟩ := hdd.requested'
      unfold Addr.toNat at *
      rw [hbase] at hshift
      rw [hbase'] at hshift'
      omega

/-- The archives `a` and `a'` of sessions that were wired alike differ as the bases do. -/
theorem rebased (h : WiredTwice p s s' o o') {a a' : Archive} (hf : s.Finished o a)
    (hf' : s'.Finished o' a') : a.Rebased p.base p.base' a' := by
  have hmarks : ∀ i, a'.pointers.has i = a.pointers.has i := by
    intro i
    rw [hf.marks, hf'.marks]
    rcases h.words i with ⟨⟨hmark, hmark'⟩, -⟩ | ⟨hzero, hzero'⟩ | ⟨⟨hmark, hmark'⟩, hpoints⟩
    · rw [hmark, hmark']
      rfl
    · simp [hzero, hzero']
    · obtain ⟨hne, hne'⟩ := hpoints.ne_zero h.fair
      rw [hmark, hmark', bne_iff_ne.2 hne, bne_iff_ne.2 hne']
  have hrequested := h.requested
  refine ⟨?_, ?_, ?_, Ledger.eq_of_last hf.last hf'.last hmarks, fun i hi => ?_, fun i hi => ?_, ?_, ?_⟩
  · rw [hf.length, hf'.length, h.length]
  · rw [hf.mutable, hf'.mutable, h.arena]
  · rw [hf.readOnly, hf'.readOnly, h.arena]
  · have hi' := hi
    rw [hf.marks, Bool.and_eq_true, bne_iff_ne] at hi
    rw [← hmarks, hf'.marks, Bool.and_eq_true, bne_iff_ne] at hi'
    rcases h.words i with ⟨⟨hmark, -⟩, -⟩ | ⟨hzero, -⟩ | ⟨-, hpoints⟩
    · rw [hmark] at hi
      cases hi.1
    · exact absurd hzero hi.2
    · exact h.shifts hpoints (hf.pointers i hi.1 hi.2) (hf'.pointers i hi'.1 hi'.2)
  · have hi' := hi
    rw [hf.marks] at hi
    rw [← hmarks, hf'.marks] at hi'
    rcases h.words i with ⟨⟨hmark, hmark'⟩, hsame⟩ | ⟨hzero, hzero'⟩ | ⟨⟨hmark, hmark'⟩, hpoints⟩
    · rw [hf.others i (.inl hmark), hf'.others i (.inl hmark'), hsame]
    · rw [hf.others i (.inr hzero), hf'.others i (.inr hzero'), hzero, hzero']
    · obtain ⟨hne, -⟩ := hpoints.ne_zero h.fair
      simp [hmark, hne] at hi
  · rw [hf.requested_bottom, hf'.requested_bottom]
    omega
  · rw [hf.requested_top, hf'.requested_top, h.arena]
    omega

/-- A marked pointer at `i` leads nowhere on both sides or on neither. -/
theorem lost_iff (h : WiredTwice p s s' o o') (i : Nat) :
    (o'.pointers.has i = true ∧ o'.buffer.words.read i ≠ 0 ∧ s'.landing o' (o'.buffer.words.read i) = none) ↔
      o.pointers.has i = true ∧ o.buffer.words.read i ≠ 0 ∧ s.landing o (o.buffer.words.read i) = none := by
  rcases h.words i with ⟨⟨hmark, hmark'⟩, -⟩ | ⟨hzero, hzero'⟩ | ⟨⟨hmark, hmark'⟩, hpoints⟩
  · simp [hmark, hmark']
  · simp [hzero, hzero']
  · obtain ⟨hne, hne'⟩ := hpoints.ne_zero h.fair
    have hleads := h.leads hpoints
    rw [← landing_isSome, ← landing_isSome] at hleads
    simp only [hmark, hmark', ne_eq, hne, hne', not_false_eq_true, true_and]
    rw [← Option.not_isSome_iff_eq_none, ← Option.not_isSome_iff_eq_none, hleads]

/-- The final pass succeeds on both sides or on neither. -/
theorem paired_relocate (h : WiredTwice p s s' o o') (sure : Prop) :
    Paired sure (fun t t' => t = s ∧ t' = s') relocate relocate fun _ _ t t' =>
      ∃ a a', t.archive? = some a ∧ t'.archive? = some a' ∧ a.Rebased p.base p.base' a' := by
  refine Paired.sides (triple_relocate h.sound h.output h.stage) (triple_relocate h.sound' h.output' h.stage')
    ?_ ?_ ?_
  · rintro _ _ _ _ ⟨o₂, hlanded, rfl⟩ ⟨o₂', hlanded', rfl⟩
    obtain ⟨a, harchive, hf⟩ := finished_of_landed h.sound hlanded
    obtain ⟨a', harchive', hf'⟩ := finished_of_landed h.sound' hlanded'
    exact ⟨a, a', harchive, harchive', h.rebased hf hf'⟩
  · rintro - _ _ _ _ ⟨i, ⟨hmark, hne, hlost, -⟩, -⟩ ⟨o₂', hlanded', -⟩
    obtain ⟨hmark', hne', hlost'⟩ := (h.lost_iff i).2 ⟨hmark, hne, hlost⟩
    obtain ⟨n, hn, -⟩ := hlanded'.marked i hmark' hne'
    rw [hlost'] at hn
    cases hn
  · rintro - _ _ _ _ ⟨o₂, hlanded, -⟩ ⟨i, ⟨hmark', hne', hlost', -⟩, -⟩
    obtain ⟨hmark, hne, hlost⟩ := (h.lost_iff i).1 ⟨hmark', hne', hlost'⟩
    obtain ⟨n, hn, -⟩ := hlanded.marked i hmark hne
    rw [hlost] at hn
    cases hn

end WiredTwice

namespace Session

/-- The session `s` of a heap before anything is gathered. -/
structure Untouched (h : Heap) (s : Session) : Prop where
  sound : s.Sound
  cataloged : Cataloged h s
  grounded : Grounded h s
  settled : Settled h s

theorem untouched_begin {h : Heap} {reservations : Reservations} {settings : Settings}
    {mapped? : Option (AddrRange .mapped)} {alive : Bool} {s : Session}
    (hbegin : begin h.toHost reservations settings mapped? alive = .ok s) : Untouched h s := by
  have hs := sound_begin hbegin
  obtain ⟨-, d?, -, rfl⟩ := begin_eq_ok hbegin
  obtain ⟨hcataloged, hgrounded, hsettled⟩ := cataloged_fresh h reservations settings d?
  exact ⟨hs, hcataloged, hgrounded, hsettled⟩

/-- Sessions `s` and `s'` begin alike. -/
theorem mates_begin {p : Pairing} {settings settings' : Settings}
    {mapped? mapped?' : Option (AddrRange .mapped)} {s s' : Session}
    (hs : begin p.heap.toHost p.reservations settings mapped? false = .ok s)
    (hs' : begin p.heap'.toHost p.reservations' settings' mapped?' false = .ok s')
    (hbase : settings.requestedBase = p.base) (hbase' : settings'.requestedBase = p.base')
    (halignment : settings'.regionAlignment = settings.regionAlignment)
    (hplaceholder : settings'.placeholderBytes = settings.placeholderBytes)
    (hmapped : Option.Rel (AddrRange.Mates p) mapped? mapped?') : s.Mates p (fun _ => False) s' := by
  obtain ⟨hvalid, d?, hd, rfl⟩ := begin_eq_ok hs
  obtain ⟨hvalid', d?', hd', rfl⟩ := begin_eq_ok hs'
  obtain ⟨rfl, hrequested⟩ := mapM_plan_eq_ok hd
  obtain ⟨rfl, hrequested'⟩ := mapM_plan_eq_ok hd'
  have hdependency : Option.Rel (Dependency.Mates p) d? d?' := by
    rcases d? with - | d <;> rcases d?' with - | d'
    · exact .none
    · cases hmapped
    · cases hmapped
    · rcases hmapped with hr | -
      exact .some ⟨hr, hbase ▸ hrequested d rfl, hbase' ▸ hrequested' d' rfl⟩
  have hlist : CopyList.empty.Mates p .empty := ⟨.nil, rfl, rfl⟩
  exact ⟨rfl, rfl, rfl, rfl, hbase, hbase', hvalid, hvalid', halignment, hplaceholder, hdependency, rfl,
    .empty, hlist, hlist, .nil, .nil, .nil, rfl, .none⟩

end Session

namespace SessionM

variable {p : Pairing} {s s' : Session} {sure : Prop}

theorem perform_build (roots : List Word) (advisories : Advisories) (templates : List DispatchTemplate)
    (s : Session) : (build roots advisories templates (pure ())).perform s =
      match (copyAll roots advisories templates).run.run ⟨s, #[]⟩ with
      | (.ok _, r) => (wire >>= fun _ => relocate).run.run r
      | (.error e, r) => (.error e, r) := by
  rw [build_eq, perform, Lockstep.run_bind]
  rcases (copyAll roots advisories templates).run.run ⟨s, #[]⟩ with ⟨_ | _, _⟩ <;> rfl

/-- Two builds whose buffers reach into their heaps alike, if at all. Both make their archives, or
    neither does, as far as that is `sure`; and the archives differ as the bases do. -/
theorem agree_build (hp : p.Fair) (hsure : sure → p.Even) (hs : Untouched p.heap s)
    (hs' : Untouched p.heap' s') (hmates : s.Mates p (fun _ => False) s') {roots roots' : List Word}
    (hroots : List.Forall₂ p.RootMate roots roots') (advisories : Advisories)
    (templates : List DispatchTemplate)
    (hclear : ∀ length,
      ((build roots advisories templates (pure ())).perform s).2.session.OutputAt p.bottom length →
      ((build roots' advisories templates (pure ())).perform s').2.session.OutputAt p.bottom' length →
      p.Clear length) :
    Agree sure (fun _ _ => ∃ a a',
        ((build roots advisories templates (pure ())).perform s).2.session.archive? = some a ∧
        ((build roots' advisories templates (pure ())).perform s').2.session.archive? = some a' ∧
        a.Rebased p.base p.base' a')
      ((build roots advisories templates (pure ())).perform s).1
      ((build roots' advisories templates (pure ())).perform s').1 := by
  have hcopied := ((paired_copyAll hp hsure hroots advisories templates).along
    (triple_copyAll hp.sound hs.sound hs.cataloged hs.grounded hs.settled roots advisories templates)
    (triple_copyAll hp.sound' hs'.sound hs'.cataloged hs'.grounded hs'.settled roots' advisories templates))
    ⟨s, #[]⟩ ⟨s', #[]⟩ ⟨⟨hmates, hs.sound.books, hs'.sound.books⟩, rfl, rfl⟩
  simp only [perform_build] at hclear ⊢
  revert hcopied hclear
  -- the runs up to the copies agree: both fail, one does where that is not `sure`, or both end
  rcases (copyAll roots advisories templates).run.run ⟨s, #[]⟩ with ⟨_ | tables, r⟩ <;>
    rcases (copyAll roots' advisories templates).run.run ⟨s', #[]⟩ with ⟨_ | tables', r'⟩ <;>
    intro hcopied hclear
  · trivial
  · dsimp only
    rcases (wire >>= fun _ => relocate).run.run r' with ⟨_ | _, _⟩
    · trivial
    · exact hcopied
  · dsimp only
    rcases (wire >>= fun _ => relocate).run.run r with ⟨_ | _, _⟩
    · trivial
    · exact hcopied
  · obtain ⟨⟨htables, halike⟩, ⟨g, placed, ot, o, hc, -⟩, g', placed', ot', o', hc', -⟩ := hcopied
    have hl : LoadedAlike p tables.provider tables'.provider r.session r'.session o o' :=
      ⟨hp, hc.loaded, hc'.loaded, htables, halike⟩
    have hplace := hl.left.triple_finish_outputAt.always (r := r) rfl
    have hplace' := hl.right.triple_finish_outputAt.always (r := r') rfl
    rw [hl.outputs.bottom] at hplace
    rw [hl.outputs.bottom', hl.outputs.length] at hplace'
    have hfinish := (hl.paired_wire (hclear _ hplace hplace') sure).bind
      (R := fun _ _ t t' => ∃ a a', t.archive? = some a ∧ t'.archive? = some a' ∧ a.Rebased p.base p.base' a')
      fun _ _ => Lockstep.pick fun o₁ => Lockstep.pick fun o₁' => fun q q' hw =>
        hw.paired_relocate sure q q' ⟨rfl, rfl⟩
    exact hfinish r r' ⟨rfl, rfl⟩

end SessionM

namespace Heap

variable (h : Heap)

/-- The object at `a` corresponds to itself. -/
def Self (a a' : Word) : Prop := a = a' ∧ (h.object? a).isSome = true

theorem corresponds_self : h.Corresponds h h.Self where
  paired := by
    rintro a _ b _ ⟨rfl, -⟩ ⟨rfl, -⟩
    exact Iff.rfl
  object := by
    rintro a _ ⟨rfl, hsome⟩
    obtain ⟨o, ho⟩ := Option.isSome_iff_exists.1 hsome
    exact ⟨o, o, ho, ho, rfl, rfl, rfl, rfl, rfl⟩
  pointers := by
    rintro a _ o i ⟨rfl, -⟩ - - -
    rcases ht : h.object? (h.wordAt a i) with - | t
    · exact .inr ⟨rfl, rfl, rfl⟩
    · exact .inl ⟨rfl, by rw [ht]; rfl⟩
  others := by
    rintro a _ o i ⟨rfl, -⟩ - - -
    rfl
  excluded := by
    rintro a _ ⟨rfl, -⟩
    rfl
  substitutes := by
    rintro a _ ⟨rfl, -⟩
    rcases h.substitutes[a]? with - | u
    · exact .none
    · refine .some ?_
      by_cases hsome : (h.object? u).isSome = true
      · exact .inl ⟨rfl, hsome⟩
      · refine .inr ⟨fun v hv => hsome hv.2, ?_⟩
        rintro v ⟨rfl, hv⟩
        exact hsome hv
  segment := rfl
  inSegment := by
    rintro a _ ⟨rfl, -⟩
    exact ⟨Iff.rfl, fun _ => rfl⟩
  strings := by
    rintro a _ b _ o u ⟨rfl, -⟩ ⟨rfl, -⟩ - - - -
    exact Iff.rfl

end Heap

/-- No object `a` of a heap lies in a buffer `b` that is apart from the heap. -/
theorem Heap.Sound.not_spans {h : Heap} (hs : h.Sound) {b : Buffer} (hapart : h.Apart b) {a : Word}
    (ha : (h.object? a).isSome = true) : ¬b.bottom.Spans b.length a := by
  obtain ⟨-, hout⟩ := hs.toNat_apart hapart ha
  unfold Addr.Spans
  omega

namespace Pairing

variable {p : Pairing}

/-- Buffers at the same place reach into one heap `h` alike. -/
theorem clear_of_self {h : Heap} (hheap : p.heap = h) (hheap' : p.heap' = h) (hmate : p.Mate = h.Self)
    (hbottom : p.bottom' = p.bottom) (length : Nat) : p.Clear length where
  level a a' hl _ := by
    obtain rfl : a = a' := by
      simp only [Level, hbottom] at hl
      grind
    rw [hmate, hheap, hheap']
    rcases ha : h.object? a with - | o
    · exact .inr ⟨rfl, rfl⟩
    · exact .inl ⟨rfl, by rw [ha]; rfl⟩
  mate a a' hself _ := by
    rw [hmate] at hself
    obtain ⟨rfl, -⟩ := hself
    simp only [Level, hbottom]

/-- Buffers `b` and `b'` that are apart from their heaps. -/
theorem Fair.clear_of_apart (hp : p.Fair) {b b' : Buffer} (hb : b.bottom = p.bottom)
    (hb' : b'.bottom = p.bottom') (hlength : b'.length = b.length) (hapart : p.heap.Apart b)
    (hapart' : p.heap'.Apart b') : p.Clear b.length := by
  have hfits := b.fits
  have hfits' := b'.fits
  rw [hb] at hfits
  rw [hb', hlength] at hfits'
  have hout : ∀ a, p.bottom.Spans b.length a → p.heap.object? a = none := fun a ha =>
    Option.not_isSome_iff_eq_none.1 fun hsome => hp.sound.not_spans hapart hsome (hb ▸ ha)
  have hout' : ∀ a, p.bottom'.Spans b.length a → p.heap'.object? a = none := fun a ha =>
    Option.not_isSome_iff_eq_none.1 fun hsome => hp.sound'.not_spans hapart' hsome (hb' ▸ hlength ▸ ha)
  refine ⟨fun a a' hl ha => .inr ⟨hout a ha, hout' a' ((hl.spans hfits hfits').2 ha)⟩, fun a a' hmate hspan => ?_⟩
  obtain ⟨o, o', ho, ho', -⟩ := hp.corresponds.object a a' hmate
  rcases hspan with ha | ha'
  · rw [hout a ha] at ho
    cases ho
  · rw [hout' a' ha'] at ho'
    cases ho'

end Pairing

namespace Session

open SessionM

/-- Only the base address matters. Two builds over one heap that differ in the requested base
    address, `settings.requestedBase` and `base'`, in buffers at the same place or apart from the
    heap: if both succeed, their archives differ in the marked words and in the requested range,
    each moved from the one base to the other. -/
theorem build_rebased {h : Heap} (made : h.Made) {reservations reservations' : Reservations}
    {settings : Settings} {base' : Word} {mapped? : Option (AddrRange .mapped)} {s s' : Session}
    (hs : begin h.toHost reservations settings mapped? false = .ok s)
    (hs' : begin h.toHost reservations' { settings with requestedBase := base' } mapped? false = .ok s')
    (roots : List Word) (advisories : Advisories) (templates : List DispatchTemplate) {t t' : Session}
    (ht : ((build roots advisories templates (pure ())).perform s).2.session = t)
    (ht' : ((build roots advisories templates (pure ())).perform s').2.session = t')
    (hok : ((build roots advisories templates (pure ())).perform s).1 = .ok ())
    (hok' : ((build roots advisories templates (pure ())).perform s').1 = .ok ())
    (hbuffers : reservations'.bottom = reservations.bottom ∨
      ∀ o o', t.output? = some o → t'.output? = some o' → h.Apart o.buffer ∧ h.Apart o'.buffer) :
    ∃ a a', t.archive? = some a ∧ t'.archive? = some a' ∧ a.Rebased settings.requestedBase base' a' := by
  let p : Pairing := ⟨h, h, h.Self, reservations, reservations', settings.requestedBase, base'⟩
  have hp : p.Fair := ⟨made.sound, made.sound, h.corresponds_self⟩
  have hmapped : Option.Rel (AddrRange.Mates p) mapped? mapped? := by
    rcases mapped? with - | r
    · exact .none
    · refine .some ⟨rfl, ?_, ?_⟩
      · rintro a _ ⟨rfl, -⟩
        rfl
      · rintro a _ ⟨rfl, -⟩ -
        rfl
  have hroots : List.Forall₂ p.RootMate roots roots := List.forall₂_same.2 fun root _ => by
    rcases hroot : h.object? root with - | o
    · exact .inr ⟨hroot, hroot⟩
    · exact .inl ⟨rfl, by rw [hroot]; rfl⟩
  subst ht ht'
  have hagree : Agree False _ _ _ := agree_build hp nofun (untouched_begin hs) (untouched_begin hs')
    (mates_begin hs hs' rfl rfl rfl rfl hmapped) hroots advisories templates ?_
  · rw [hok, hok'] at hagree
    exact hagree
  · rintro length ⟨o, ho, hbottom, rfl⟩ ⟨o', ho', hbottom', hlength⟩
    rcases hbuffers with hsame | hapart
    · have hplace : p.bottom' = p.bottom := hsame
      exact Pairing.clear_of_self rfl rfl rfl hplace _
    · obtain ⟨hleft, hright⟩ := hapart o o' ho ho'
      exact hp.clear_of_apart hbottom hbottom' hlength hleft hright

/-- A session over the mixed heap for another base address, as it begins. -/
def mixedElsewhere : Except BuildError Session :=
  begin mixedHeap.toHost ⟨⟨0x20000⟩, 0x1000, room_fits⟩ ⟨0x10000, 8, 0, false⟩ mixedHeap.dependencyRange? false

/-- The archive of the mixed heap for two base addresses. -/
theorem build_rebased_mixed : ∃ t s' a a', mixedElsewhere = .ok s' ∧
    ((build [0x100000000010] ⟨0, 0, 16⟩ [⟨.procedure, [11, 12]⟩] (pure ())).perform s').2.session = t ∧
    mixedBuilt.archive? = some a ∧ t.archive? = some a' ∧ a.Rebased 0x8000 0x10000 a' := by
  have hbegin : mixedBegun = .ok mixedSession := eq_ok_of_toOption (Option.some_get _).symm
  have hok : ((build [0x100000000010] ⟨0, 0, 16⟩ [⟨.procedure, [11, 12]⟩] (pure ())).perform
      mixedSession).1.toOption = some () := by decide +kernel
  have helsewhere : (mixedElsewhere.toOption.map fun s' => ((build [0x100000000010] ⟨0, 0, 16⟩
      [⟨.procedure, [11, 12]⟩] (pure ())).perform s').1.toOption) = some (some ()) := by decide +kernel
  rcases hs' : mixedElsewhere with e | s'
  · rw [hs'] at helsewhere
    cases helsewhere
  · rw [hs'] at helsewhere
    obtain ⟨a, a', ha, ha', hrebased⟩ := build_rebased mixedHeap_made hbegin hs' [0x100000000010] ⟨0, 0, 16⟩
      [⟨.procedure, [11, 12]⟩] (rfl : _ = mixedBuilt) rfl (eq_ok_of_toOption hok)
      (eq_ok_of_toOption (Option.some_inj.1 helsewhere)) (.inl rfl)
    exact ⟨_, s', a, a', rfl, rfl, ha, ha', hrebased⟩

end Session

end SnapshotArchive
