import SnapshotArchive.Proofs.Reaching

/-!
Conflicts over regions. A search enters an object for the region that the first reference it meets asks for,
and fails at a later one that asks for the other region. So it fails only where two of the references that
it follows ask for different regions, and if it succeeds, no two of them do. But it does not follow the
references of the graph alone. It begins at the descriptors and strings that will be copied, and each of
these then asks for its own region, though no reference may: the one reference to such an object is a
conflict if it asks for the other region.
-/

namespace SnapshotArchive

namespace Heap

variable {h : Heap} {roots : List Word} {a t w : Word} {i : Nat} {readOnly : Bool}

/-- Word `i` of the object at `a` refers to the object at `t`, and asks for the region that
    `readOnly` says. -/
def Refers (h : Heap) (a : Word) (i : Nat) (t : Word) (readOnly : Bool) : Prop :=
  ∃ o readOnly? x, h.object? a = some o ∧ o.fields[i]? = some readOnly? ∧ i < o.length ∧
    h.memory.read (o.start + i) = t ∧ h.object? t = some x ∧ readOnly?.getD x.readOnly = readOnly

/-- The object at `w` asks for a region of itself. -/
def Prefers (h : Heap) (w : Word) (readOnly : Bool) : Prop :=
  ∃ o, h.object? w = some o ∧ o.readOnly = readOnly

/-- A root, or a field of an object to which there is a way from `roots`, refers to the object at
    `w` and asks for a region. -/
def Demands (h : Heap) (roots : List Word) (w : Word) (readOnly : Bool) : Prop :=
  w ∈ roots ∧ h.Prefers w readOnly ∨
    ∃ a i, h.Reaches (fun _ => True) (· ∈ roots) a ∧ h.Refers a i w readOnly

/-- A reference `e` that a traversal reports of the object at `a` is that of a field `i`. -/
theorem refers_of_mem_edges {held : List Edge} (hok : h.edges a = .ok held) {e : Edge} (he : e ∈ held) :
    ∃ i, h.Refers a i e.pointee e.readOnly := by
  obtain ⟨-, rfl⟩ | ⟨o, ho, hin, rfl⟩ := edges_eq_ok hok
  · cases he
  · obtain ⟨⟨i, readOnly?⟩, hmem, hedge⟩ := List.mem_filterMap.1 he
    obtain ⟨x, hx, rfl⟩ := Option.map_eq_some_iff.1 hedge
    have hfield := Std.TreeMap.mem_toList_iff_getElem?_eq_some.1 hmem
    have hi : i ∈ o.fields := by
      rw [← Std.TreeMap.isSome_getElem?_iff_mem, hfield]
      rfl
    exact ⟨i, o, readOnly?, x, ho, hfield, hin i hi, rfl, hx, rfl⟩

/-- The reference of field `i` of the object at `a` is reported. -/
theorem mem_edges_of_refers {held : List Edge} (hok : h.edges a = .ok held)
    (hrefers : h.Refers a i t readOnly) : ∃ e ∈ held, e.pointee = t ∧ e.readOnly = readOnly := by
  obtain ⟨o, readOnly?, x, ho, hfield, -, rfl, hx, rfl⟩ := hrefers
  obtain ⟨hnone, -⟩ | ⟨o', ho', -, rfl⟩ := edges_eq_ok hok
  · exact nomatch ho.symm.trans hnone
  · obtain rfl := Option.some_inj.1 (ho.symm.trans ho')
    exact ⟨_, List.mem_filterMap.2 ⟨(i, readOnly?), Std.TreeMap.mem_toList_iff_getElem?_eq_some.2 hfield,
      Option.map_eq_some_iff.2 ⟨x, hx, rfl⟩⟩, rfl, rfl⟩

end Heap

namespace Session

variable {h : Heap} {s s₀ s₁ s₂ : Session} {roots ahead : List Word} {pending rest : List Edge} {e : Edge}
  {v : Visit} {w : Word} {readOnly : Bool}

/-- A search of `s` begins at the object at `w`, which asks for its own region; or it comes across a
    field that refers to the object and asks for a region. -/
def Requests (h : Heap) (s : Session) (roots : List Word) (w : Word) (readOnly : Bool) : Prop :=
  s.Begins h roots w ∧ h.Prefers w readOnly ∨
    ∃ a i, s.Finds h roots a ∧ s.Opens h a ∧ h.Refers a i w readOnly

/-- The object at `w` is not replaced, and both regions are asked for. -/
def Contested (h : Heap) (s : Session) (roots : List Word) (w : Word) : Prop :=
  h.toHost.hasSubstitute w = false ∧ ∀ readOnly, s.Requests h roots w readOnly

/-- The object at `w` is replaced, or was entered for a region, or a reference of `pending` asks for
    that region. -/
def Grants (h : Heap) (s : Session) (pending : List Edge) (w : Word) (readOnly : Bool) : Prop :=
  h.toHost.hasSubstitute w = true ∨ (∃ x, s.catalog.get? w = some x ∧ x.readOnly = readOnly) ∨
    ∃ e ∈ pending, e.pointee = w ∧ e.readOnly = readOnly

/-- All that was entered in `s` or is `pending` was asked for; and all that was asked for was
    granted, but for the roots `ahead`. -/
structure Granting (h : Heap) (s₀ : Session) (roots ahead : List Word) (pending : List Edge) (s : Session) :
    Prop where
  asked : ∀ e ∈ pending, s₀.Requests h roots e.pointee e.readOnly
  entered : ∀ w x, s.catalog.get? w = some x → s₀.Requests h roots w x.readOnly
  begun : ∀ w readOnly, s₀.Begins h roots w → h.Prefers w readOnly →
    w ∈ ahead ∨ s.Grants h pending w readOnly
  held : ∀ a x, s.catalog.get? a = some x → x.isCopied = true → ∀ i t readOnly,
    h.Refers a i t readOnly → s.Grants h pending t readOnly

/-- What is found at `w` has a way to it from `roots`. -/
theorem Finds.reaches (hfinds : s.Finds h roots w) : h.Reaches (fun _ => True) (· ∈ roots) w := by
  refine hfinds.find (fun w hbegins hsome => ?_) fun _ _ _ ha _ hholds => ha.pass trivial hholds
  rcases hbegins with hroot | ⟨hsurveys, -⟩
  · exact .start hsome hroot
  · exact hsurveys.find (fun _ hroot hsome => .start hsome hroot) fun _ _ _ ha _ hholds =>
      ha.pass trivial hholds

/-- A region that a search is asked for is asked for in the graph, unless the object at `w` is a
    descriptor or a string that asks for its own. -/
theorem Requests.demands (hrequests : s.Requests h roots w readOnly) :
    h.Demands roots w readOnly ∨ s.Heads h w ∧ h.Prefers w readOnly := by
  rcases hrequests with ⟨hroot | ⟨-, hheads⟩, hprefers⟩ | ⟨a, i, hfinds, -, hrefers⟩
  · exact .inl (.inl ⟨hroot, hprefers⟩)
  · exact .inr ⟨hheads, hprefers⟩
  · exact .inl (.inr ⟨a, i, hfinds.reaches, hrefers⟩)

/-- An object `w` has one region of its own. -/
theorem prefers_unique {readOnly' : Bool} (hleft : h.Prefers w readOnly) (hright : h.Prefers w readOnly') :
    readOnly = readOnly' := by
  obtain ⟨o, ho, rfl⟩ := hleft
  obtain ⟨o', ho', rfl⟩ := hright
  rw [Option.some_inj.1 (ho.symm.trans ho')]

/-- Of the two requests for a contested object `w` one at least is made in the graph. -/
theorem Contested.demands (hcontested : s.Contested h roots w) :
    (∀ readOnly, h.Demands roots w readOnly) ∨
      s.Heads h w ∧ ∃ readOnly, h.Prefers w readOnly ∧ h.Demands roots w (!readOnly) := by
  by_cases hall : ∀ readOnly, h.Demands roots w readOnly
  · exact .inl hall
  · obtain ⟨own, hown⟩ := not_forall.1 hall
    obtain ⟨hheads, hprefers⟩ := (hcontested.2 own).demands.resolve_left hown
    refine .inr ⟨hheads, own, hprefers, (hcontested.2 !own).demands.resolve_right fun hother => ?_⟩
    exact absurd (prefers_unique hprefers hother.2) (by cases own <;> decide)

end Session

namespace SessionM

open Session

variable {h : Heap} {s s₀ s₁ s₂ : Session} {roots ahead : List Word} {pending rest : List Edge} {e : Edge}
  {v : Visit} {w : Word} {readOnly : Bool}

/-- Noting a field grants nothing, and takes nothing back. -/
theorem NoteStep.grants (hnote : NoteStep s e s₁) (hkept : s.books.Kept)
    (hgrants : s.Grants h pending w readOnly) : s₁.Grants h pending w readOnly := by
  refine hgrants.imp_right (Or.imp_left ?_)
  rintro ⟨x, hx, hregion⟩
  rcases hnote.get? hkept w with hsame | ⟨y, hy, hnew⟩
  · exact ⟨x, hsame.trans hx, hregion⟩
  · obtain rfl := Option.some_inj.1 (hx.symm.trans hy)
    exact ⟨_, hnew, hregion⟩

theorem NoteStep.granting (hnote : NoteStep s e s₁) (hkept : s.books.Kept)
    (hI : Granting h s₀ roots ahead pending s) : Granting h s₀ roots ahead pending s₁ where
  asked := hI.asked
  entered w x hx := by
    obtain ⟨y, flag, hy, rfl⟩ := hnote.entry hkept hx
    exact hI.entered w y hy
  begun w readOnly hbegins hprefers := (hI.begun w readOnly hbegins hprefers).imp_right (hnote.grants hkept)
  held a x hx hcopied i t readOnly hrefers := by
    obtain ⟨y, flag, hy, rfl⟩ := hnote.entry hkept hx
    exact hnote.grants hkept (hI.held a y hy hcopied i t readOnly hrefers)

/-- Entering a target for the region of `e` grants that reference. -/
theorem EnterStep.target_granted (henter : EnterStep s e v s₁) :
    s.host.hasSubstitute e.pointee = true ∨
      ∃ x, s₁.catalog.get? e.pointee = some x ∧ x.readOnly = e.readOnly := by
  have hself : (s.foundEntry e).source = e.pointee := rfl
  cases henter with
  | replaced sub => exact .inl sub
  | known _ found same => exact .inr ⟨_, found, same⟩
  | left => exact .inr ⟨s.foundEntry e, by rw [withEntry_catalog, Catalog.get?_put, if_pos hself], rfl⟩
  | accepted => exact .inr ⟨_, by rw [enlisted_get?, if_pos hself], rfl⟩

theorem EnterStep.grants (henter : EnterStep s e v s₁) (hhost : s.host = h.toHost) {rest' : List Edge}
    (hrest : rest ⊆ rest') (hgrants : s.Grants h (e :: rest) w readOnly) :
    s₁.Grants h rest' w readOnly := by
  rcases hgrants with hsub | ⟨x, hx, hregion⟩ | ⟨y, hy, rfl, rfl⟩
  · exact .inl hsub
  · rcases henter.get? w with hsame | ⟨-, hnone, -⟩
    · exact .inr (.inl ⟨x, hsame.trans hx, hregion⟩)
    · exact nomatch hx.symm.trans hnone
  · rcases List.mem_cons.1 hy with rfl | hy
    · exact henter.target_granted.imp (hhost ▸ ·) .inl
    · exact .inr (.inr ⟨y, hrest hy, rfl, rfl⟩)

/-- Entering a target keeps to what was asked for, and grants it. -/
theorem EnterStep.granting (henter : EnterStep s e v s₁) (hhost : s.host = h.toHost) (ht : h.Targets e)
    (hf : Finding h s₀ roots ahead (e :: rest) s) (hI : Granting h s₀ roots ahead (e :: rest) s) :
    h.toHost.Leaves (Granting h s₀ roots ahead) e rest v s₁ := by
  obtain ⟨htarget, hrest⟩ := List.forall_mem_cons.1 hI.asked
  have hentered : ∀ w x, s₁.catalog.get? w = some x → s₀.Requests h roots w x.readOnly := by
    intro w x hx
    rcases henter.entry hx with hold | ⟨rfl, bits?, rfl⟩
    · exact hI.entered w x hold
    · exact htarget
  cases v with
  | skip =>
    refine ⟨hrest, hentered, fun w readOnly hbegins hprefers => ?_, fun a x hx hcopied i t readOnly hrefers =>
      ?_⟩
    · exact (hI.begun w readOnly hbegins hprefers).imp_right (henter.grants hhost fun _ => id)
    · exact henter.grants hhost (fun _ => id)
        (hI.held a x (henter.skip hx hcopied) hcopied i t readOnly hrefers)
  | recurse =>
    intro held hheld
    have hmore : rest ⊆ held ++ rest := List.subset_append_right ..
    refine ⟨List.forall_mem_append.2 ⟨fun x hx => ?_, hrest⟩, hentered,
      fun w readOnly hbegins hprefers => ?_, fun a x hx hcopied i t readOnly hrefers => ?_⟩
    · obtain ⟨i, hrefers⟩ := Heap.refers_of_mem_edges hheld hx
      have htakes : s₀.Takes h e.pointee := (takes_iff ht).2 ((hf.fate e).symm.trans henter.fate)
      exact .inr ⟨e.pointee, i, hf.reached e (List.mem_cons_self ..), ⟨htakes, hhost ▸ henter.plain⟩, hrefers⟩
    · exact (hI.begun w readOnly hbegins hprefers).imp_right (henter.grants hhost hmore)
    · rcases henter.entry hx with hold | ⟨rfl, -⟩
      · exact henter.grants hhost hmore (hI.held a x hold hcopied i t readOnly hrefers)
      · obtain ⟨y, hy, hpointee, hregion⟩ := Heap.mem_edges_of_refers hheld hrefers
        exact .inr (.inr ⟨y, List.mem_append_left _ hy, hpointee, hregion⟩)

/-- If `f` is a conflict over an object, that object is contested. -/
def Contends (h : Heap) (s₀ : Session) (roots : List Word) (f : Failure) (_ : Session) : Prop :=
  ∀ w, f = .error (.invariant (.inconsistentMutability w)) → s₀.Contested h roots w

/-- Marking `field` fails with no conflict. -/
theorem markField_eq_error {l : CopyList} {x : SourceEntry} {field : Word} {f : Failure}
    (hfail : l.markField x field = .error f) (w : Word) :
    f ≠ .error (.invariant (.inconsistentMutability w)) := by
  unfold CopyList.markField at hfail
  split at hfail
  · split at hfail <;> cases hfail
    nofun
  · cases hfail
    nofun

/-- A report of `e` keeps to what was asked for; if it fails with a conflict, both regions were. -/
theorem triple_report_granting (hsifting : Sifting h s₀ (e :: rest) s)
    (hf : Finding h s₀ roots ahead (e :: rest) s) (hI : Granting h s₀ roots ahead (e :: rest) s) :
    Triple (· = s) (registerEdge e) (h.toHost.Leaves (Granting h s₀ roots ahead) e rest)
      (Contends h s₀ roots) := by
  have hc := hsifting.1.searched.cataloged
  have ht := (hsifting.1.reports e (List.mem_cons_self ..)).1
  have hasked := hI.asked e (List.mem_cons_self ..)
  refine (triple_registerEdge s e).conseq (fun _ h => h) ?_ ?_
  · rintro v s₂ ⟨s₁, hnote, henter⟩
    exact henter.granting (hnote.host.trans hc.host) ht (hnote.finding hc.kept hf)
      (hnote.granting hc.kept hI)
  · rintro f s₁ (⟨-, place, x, -, -, -, hmark⟩ | ⟨hnote, x, hx, hregion, rfl⟩) w hfail
    · exact absurd hfail (markField_eq_error hmark w)
    · cases hfail
      obtain ⟨y, flag, hy, rfl⟩ := hnote.entry hc.kept hx
      have hplain := hsifting.2.entries _ (by rw [hy]; rfl)
      refine ⟨hc.host ▸ hplain, fun readOnly => ?_⟩
      have hentered := hI.entered _ y hy
      by_cases hsame : e.readOnly = readOnly
      · exact hsame ▸ hasked
      · have hother : y.readOnly = readOnly := by
          revert hregion hsame
          cases readOnly <;> cases e.readOnly <;> cases y.readOnly <;> simp
        exact hother ▸ hentered

/-- A traversal fails with a fault `x`, where no report fails. -/
theorem walk_error {σ : Type} {host : Host} {report : Edge → ExceptT Failure (StateM σ) Visit}
    (hreport : ∀ e s, ∃ v s', (report e).run.run s = (.ok v, s')) :
    ∀ (fuel : Nat) (pending : List Edge) (s s' : σ) (f : Failure),
      (host.walk report fuel pending).run.run s = (.error f, s') → ∃ x, f = .fault x
  | 0, _, _, _, _, hrun => by cases hrun
  | _ + 1, [], _, _, _, hrun => by cases hrun
  | fuel + 1, e :: rest, s, s', f, hrun => by
    rw [Host.walk, Lockstep.run_bind] at hrun
    obtain ⟨v, t, hv⟩ := hreport e s
    rw [hv] at hrun
    cases v with
    | skip => exact walk_error hreport fuel rest t s' f hrun
    | recurse =>
      dsimp only at hrun
      cases hheld : host.edges e.pointee with
      | error x =>
        rw [hheld] at hrun
        cases hrun
        exact ⟨x, rfl⟩
      | ok held =>
        rw [hheld] at hrun
        exact walk_error hreport fuel (held ++ rest) t s' f hrun

/-- A survey of `roots` fails with a fault. -/
theorem survey_error {f : Failure} {v : Survey} (hrun : s.survey roots = (.error f, v)) :
    ∃ x, f = .fault x := by
  have hreport : ∀ e v, ∃ x v', (s.surveyEdge e).run.run v = (.ok x, v') := by
    intro e v
    rw [run_surveyEdge]
    split
    · exact ⟨_, _, rfl⟩
    · split <;> exact ⟨_, _, rfl⟩
  unfold survey at hrun
  generalize ({ seen := ∅, descriptors := _, strings := _, estimate := _ } : Survey) = v₀ at hrun
  induction roots generalizing v₀ with
  | nil => cases hrun
  | cons root roots ih =>
    change (s.host.visit root s.surveyEdge >>= fun _ =>
      roots.forM fun root => s.host.visit root s.surveyEdge).run.run v₀ = _ at hrun
    rw [Lockstep.run_bind] at hrun
    rcases hvisit : (s.host.visit root s.surveyEdge).run.run v₀ with ⟨f' | ⟨⟩, v₁⟩ <;> rw [hvisit] at hrun
    · cases hrun
      unfold Host.visit at hvisit
      split at hvisit
      · cases hvisit
      · exact walk_error hreport _ _ _ _ _ hvisit
    · exact ih v₁ hrun

/-- The search for first roots among `roots` fails with no conflict. -/
theorem triple_gatherSeeds_contends (s₀ : Session) (roots : List Word) :
    Triple (fun _ => True) (gatherSeeds roots) (fun _ _ => True) (Contends h s₀ roots) := by
  intro r _
  unfold gatherSeeds
  simp only [wp_bind, wp_tell, wp_session, wp_update, wp_ofFailure]
  rcases hv : r.session.survey roots with ⟨f | ⟨⟩, v⟩
  · obtain ⟨x, rfl⟩ := survey_error hv
    exact nofun
  · cases r.session.isIncremental with
    | true =>
      simp only [Bool.not_true, Bool.false_eq_true, if_false, wp_bind, wp_tell, wp_session, wp_update]
      split
      · exact nofun
      · trivial
    | false =>
      simp only [Bool.not_false, if_true, wp_bind, wp_tell, wp_session, wp_update]
      split
      · exact nofun
      · trivial

/-- A search of a fresh session `s` keeps to what was asked for. -/
theorem searchKeeps_granting (hhost : s.host = h.toHost) (hstrings : s.internedStrings = [])
    (hdescriptors : s.typeDescriptors = []) (hnone : ∀ w, s.catalog.get? w = none) (roots : List Word) :
    SearchKeeps h s roots (Granting h s roots) (Contends h s roots) where
  survey := ((triple_gatherSeeds s roots).and (triple_gatherSeeds_contends (h := h) s roots)).conseq
    (fun _ hs => ⟨hs, trivial⟩) (fun _ _ hs => hs.1) fun _ _ hs => hs.2
  seeds s₁ hsurveyed := by
    have hbegins := fun w => (begins_iff hhost hstrings hdescriptors hsurveyed w).2
    obtain ⟨⟨descriptors, strings, estimate, rfl⟩, -⟩ := hsurveyed
    have hempty : ∀ w x, s.catalog.get? w ≠ some x := fun w x hx => nomatch (hnone w).symm.trans hx
    exact ⟨nofun, fun w x hx => absurd hx (hempty w x), fun w _ hw _ => .inl (hbegins w hw),
      fun a x hx => absurd hx (hempty a x)⟩
  missing root ahead s hmissing hI := by
    refine ⟨hI.asked, hI.entered, fun w readOnly hbegins hprefers => ?_, hI.held⟩
    refine (hI.begun w readOnly hbegins hprefers).imp_left fun hahead => ?_
    refine (List.mem_cons.1 hahead).resolve_left ?_
    rintro rfl
    obtain ⟨o, ho, -⟩ := hprefers
    exact nomatch hmissing.symm.trans ho
  root root ahead o s hroot ho hI := by
    have hmore : ∀ w readOnly, s.Grants h [] w readOnly → s.Grants h [Heap.rootEdge root o] w readOnly :=
      fun w readOnly => Or.imp_right (Or.imp_right nofun)
    refine ⟨fun x hx => ?_, hI.entered, fun w readOnly hbegins hprefers => ?_,
      fun a x hx hcopied i t readOnly hrefers => hmore t readOnly (hI.held a x hx hcopied i t readOnly hrefers)⟩
    · obtain rfl := List.mem_singleton.1 hx
      exact .inl ⟨hroot, o, ho, rfl⟩
    · rcases hI.begun w readOnly hbegins hprefers with hahead | hgrants
      · refine (List.mem_cons.1 hahead).elim (fun heq => .inr (.inr (.inr ?_))) .inl
        obtain ⟨o', ho', hregion⟩ := hprefers
        rw [heq] at ho'
        obtain rfl := Option.some_inj.1 (ho.symm.trans ho')
        exact ⟨_, List.mem_singleton_self _, heq.symm, hregion⟩
      · exact .inr (hmore w readOnly hgrants)
  report _ _ _ _ hsifting hf hI := triple_report_granting hsifting hf hI
  fault _ _ _ hfail := nomatch hfail

end SessionM

open SessionM

namespace Session

variable {h : Heap} {s s₁ : Session} {roots : List Word} {w : Word} {readOnly : Bool}

/-- Once nothing is pending, the region that was asked for `w` is that of its entry. -/
theorem Granting.granted (hI : Granting h s roots [] [] s₁) (hexact : s.ExactlyGathered h roots s₁)
    (hplain : h.toHost.hasSubstitute w = false) (hrequests : s.Requests h roots w readOnly) :
    ∃ x, s₁.catalog.get? w = some x ∧ x.readOnly = readOnly := by
  have hgrants : s₁.Grants h [] w readOnly := by
    rcases hrequests with ⟨hbegins, hprefers⟩ | ⟨a, i, hfinds, ⟨⟨o, ho, hcopy⟩, hopen⟩, hrefers⟩
    · exact (hI.begun w readOnly hbegins hprefers).resolve_left nofun
    · obtain ⟨x, hx⟩ := (hexact.entered a).2 ⟨hfinds, hopen⟩
      obtain ⟨-, -, o', ho', -, -, hfate⟩ := hexact.entry a x hx
      obtain rfl := Option.some_inj.1 (ho.symm.trans ho')
      exact hI.held a x hx (decide_eq_true (hfate.trans hcopy)) i w readOnly hrefers
  rcases hgrants with hsub | hentered | ⟨_, hnone, -⟩
  · exact nomatch hplain.symm.trans hsub
  · exact hentered
  · cases hnone

/-- A gather of a fresh session that fails with a conflict over `w` was asked for both of its
    regions, and one that succeeds was not asked for both regions of any object that is not
    replaced. And where it was, two references of the graph ask for different regions; or the object
    is a descriptor or a string that is copied, and one reference asks for the region other than its
    own. -/
theorem gather_contested (made : h.Made) {reservations : Reservations} {settings : Settings}
    {mapped? : Option (AddrRange .mapped)} {alive : Bool}
    (hbegin : begin h.toHost reservations settings mapped? alive = .ok s) (roots : List Word) :
    (∀ w, ((gather roots).perform s).1 = .error (.error (.invariant (.inconsistentMutability w))) →
      s.Contested h roots w) ∧
    (((gather roots).perform s).1 = .ok () → ∀ w, ¬s.Contested h roots w) ∧
    ∀ w, s.Contested h roots w → (∀ readOnly, h.Demands roots w readOnly) ∨
      s.Heads h w ∧ ∃ readOnly, h.Prefers w readOnly ∧ h.Demands roots w (!readOnly) := by
  obtain ⟨-, d?, -, rfl⟩ := begin_eq_ok hbegin
  have hsettled := (cataloged_fresh h reservations settings d?).2.2
  have hsearch := triple_gather_search made.sound
    (searchKeeps_granting (s := fresh h.toHost reservations settings d?) rfl rfl rfl Catalog.get?_empty
      roots)
  refine ⟨fun w hfail => ?_, fun hok w hcontested => ?_, fun w => Contested.demands⟩
  · obtain ⟨_, hok, -⟩ | ⟨f, herror, hcontends⟩ := hsearch.perform rfl
    · exact nomatch hok.symm.trans hfail
    · exact hcontends w (Except.error.inj (herror.symm.trans hfail))
  · obtain ⟨s₁, ⟨hsifting, hf, hI⟩, -⟩ := hsearch.on_eq_ok (r := ⟨_, #[]⟩) rfl hok
    have hexact := hf.exactlyGathered hsifting hsettled
    obtain ⟨x, hx, hregion⟩ := hI.granted hexact hcontested.1 (hcontested.2 true)
    obtain ⟨y, hy, hother⟩ := hI.granted hexact hcontested.1 (hcontested.2 false)
    obtain rfl := Option.some_inj.1 (hx.symm.trans hy)
    exact nomatch hregion.symm.trans hother

/-- An object whose one field refers to a string, and asks for the mutable region. -/
def overriddenHeap : Heap :=
  (Heap.create 0x100000000000 0).afterCalls
    [.alloc .other 1 none, .alloc .internedString 1 none,
      .setPointer 0x100000000000 0 (some 0x100000000008) (some false)]

theorem overriddenHeap_made : overriddenHeap.Made :=
  (Heap.Made.create (by decide) (by decide)).afterCalls _

/-- A session over that heap. -/
def overriddenFresh : Session :=
  fresh overriddenHeap.toHost ⟨⟨0x20000⟩, 0x1000, room_fits⟩ ⟨0x8000, 8, 0, false⟩ none

/-- The one reference to the string at `0x100000000008` asks for the mutable region, and yet there
    is a conflict. -/
theorem gather_contested_overridden :
    begin overriddenHeap.toHost ⟨⟨0x20000⟩, 0x1000, room_fits⟩ ⟨0x8000, 8, 0, false⟩ none false =
      .ok overriddenFresh ∧
    ((gather [0x100000000000]).perform overriddenFresh).1 =
      .error (.error (.invariant (.inconsistentMutability 0x100000000008))) ∧
    overriddenFresh.Contested overriddenHeap [0x100000000000] 0x100000000008 ∧
    overriddenHeap.Demands [0x100000000000] 0x100000000008 false ∧
    ¬overriddenHeap.Demands [0x100000000000] 0x100000000008 true := by
  have hbegin : begin overriddenHeap.toHost ⟨⟨0x20000⟩, 0x1000, room_fits⟩ ⟨0x8000, 8, 0, false⟩ none
      false = .ok overriddenFresh := begin_fresh (by decide +kernel)
  have hfail : ((gather [0x100000000000]).perform overriddenFresh).1 =
      .error (.error (.invariant (.inconsistentMutability 0x100000000008))) := by decide +kernel
  obtain ⟨hcontested, -, hdemands⟩ := gather_contested overriddenHeap_made hbegin [0x100000000000]
  have hmutable : ¬overriddenHeap.Demands [0x100000000000] 0x100000000008 true := by
    have hfields : ∀ p ∈ overriddenHeap.objects.toList, ∀ q ∈ p.2.fields.toList, q.2 = some false := by
      decide +kernel
    rintro (⟨hroot, -⟩ | ⟨a, i, -, o, readOnly?, x, ho, hfield, -, -, -, hregion⟩)
    · exact absurd hroot (by decide)
    · have hfalse := hfields (a, o) (Std.TreeMap.mem_toList_iff_getElem?_eq_some.2 ho) (i, readOnly?)
        (Std.TreeMap.mem_toList_iff_getElem?_eq_some.2 hfield)
      rw [show readOnly? = some false from hfalse] at hregion
      cases hregion
  have hother := (hdemands _ (hcontested _ hfail)).resolve_left fun hboth => hmutable (hboth true)
  obtain ⟨-, own, -, hother⟩ := hother
  refine ⟨hbegin, hfail, hcontested _ hfail, ?_, hmutable⟩
  cases own with
  | true => exact hother
  | false => exact absurd hother hmutable

end Session

end SnapshotArchive
