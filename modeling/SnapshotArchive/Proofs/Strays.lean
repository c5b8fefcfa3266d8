import SnapshotArchive.Proofs.Reaching

/-!
Strays. A survey looks into replaced objects, and the search that follows does not. So a descriptor or a
string to which every way leads through a replaced object is listed as a first root and entered, with all
that it holds, though nothing that is archived refers to it; and one that is replaced itself is listed, but
not entered. The two agree about replaced objects if and only if nothing is listed that they hide.
-/

namespace SnapshotArchive

namespace Heap

variable {h : Heap} {roots : List Word} {opens opens' starts starts' : Word → Prop} {w : Word}

/-- There is a way to the object at `w` from `roots` on which no object is replaced, the last one
    included. -/
def Spares (h : Heap) (roots : List Word) (w : Word) : Prop :=
  h.toHost.hasSubstitute w = false ∧ h.Reaches (h.toHost.hasSubstitute · = false) (· ∈ roots) w

/-- A way to `w` joins ways from `starts'` to where it starts. -/
theorem Reaches.join (hr : h.Reaches opens starts w) (hopens : ∀ a, opens a → opens' a)
    (hstarts : ∀ a, starts a → (h.object? a).isSome = true → h.Reaches opens' starts' a) :
    h.Reaches opens' starts' w :=
  hr.find hstarts fun a _ _ ha hopen hholds => ha.pass (hopens a hopen) hholds

/-- A way from a `head` that is spared leads on from `roots`. -/
theorem Spares.join {head : Word} (hspares : h.Spares [head] w) (hhead : h.Spares roots head) :
    h.Spares roots w := by
  refine ⟨hspares.1, hspares.2.join (fun _ hplain => hplain) fun a ha _ => ?_⟩
  rw [List.mem_singleton.1 ha]
  exact hhead.2

/-- From `roots` that are replaced no other object `w` is spared. -/
theorem Spares.mem_roots (hspares : h.Spares roots w)
    (hroots : ∀ root ∈ roots, h.toHost.hasSubstitute root = true) : w ∈ roots := by
  obtain ⟨-, -, root, hroot, hpath⟩ := hspares
  rcases hpath.cases_head with rfl | ⟨_, ⟨hplain, -⟩, -⟩
  · exact hroot
  · exact nomatch hplain.symm.trans (hroots root hroot)

end Heap

namespace Session

variable {h : Heap} {s s' : Session} {roots : List Word} {w : Word}

/-- The object at `w` is listed as a descriptor or an interned string. -/
def Lists (s : Session) (w : Word) : Prop := w ∈ s.typeDescriptors ∨ w ∈ s.internedStrings

/-- All that `s` lists is entered to be copied, and all that is entered is spared. -/
structure Agrees (h : Heap) (roots : List Word) (s : Session) : Prop where
  listed : ∀ w, s.Lists w → ∃ e, s.catalog.get? w = some e ∧ e.disposition = .copy
  entered : ∀ w e, s.catalog.get? w = some e → h.Spares roots w

/-- An object `w` that is found and not replaced is spared, or a listed `head` that is not replaced
    leads to it. -/
theorem Finds.spares (hfinds : s.Finds h roots w) (hplain : h.toHost.hasSubstitute w = false)
    (hlists : ∀ w, s.Surveys h roots w ∧ s.Heads h w → s'.Lists w) :
    h.Spares roots w ∨ ∃ head, s'.Lists head ∧ h.Spares [head] w := by
  obtain ⟨hsome, root, hbegins, hpath⟩ := hfinds
  have hway : ∀ starts : List Word, root ∈ starts → h.Spares starts w := fun starts hroot =>
    ⟨hplain, hsome, root, hroot, Relation.ReflTransGen.mono (fun _ _ hpasses => ⟨hpasses.1.2, hpasses.2⟩) _ _ hpath⟩
  rcases hbegins with hroot | hhead
  · exact .inl (hway roots hroot)
  · exact .inr ⟨root, hlists root hhead, hway [root] (List.mem_singleton_self root)⟩

/-- A descriptor or string `w` that is copied has a copied entry if it is found and not replaced. -/
theorem ExactlyGathered.copies (hexact : s.ExactlyGathered h roots s') (hfinds : s.Finds h roots w)
    (hplain : h.toHost.hasSubstitute w = false) (hheads : s.Heads h w) :
    ∃ e, s'.catalog.get? w = some e ∧ e.disposition = .copy := by
  obtain ⟨e, he⟩ := (hexact.entered w).2 ⟨hfinds, hplain⟩
  obtain ⟨-, -, o, ho, -, -, hfate⟩ := hexact.entry w e he
  obtain ⟨o', ho', hcopy, -⟩ := hheads
  obtain rfl := Option.some_inj.1 (ho.symm.trans ho')
  exact ⟨e, he, hfate.trans hcopy⟩

end Session

namespace SessionM

open Session

variable {h : Heap} {s : Session} {roots : List Word}

/-- A visit from `root` lists nothing. -/
theorem keeps_lists_visit (strings descriptors : List Word) (host : Host) (root : Word) :
    Keeps (fun s => s.internedStrings = strings ∧ s.typeDescriptors = descriptors)
      (host.visit root registerEdge) := by
  refine Host.keeps_visit (fun e r hr => ?_) root
  have hkept : ∀ {b : Books} {s' : Session}, s' = r.session.withBooks b →
      s'.internedStrings = strings ∧ s'.typeDescriptors = descriptors := by
    rintro b _ rfl
    exact hr
  refine (triple_registerEdge r.session e).use rfl ?_ ?_
  · rintro v r₂ ⟨s₁, hnote, henter⟩
    have hs₁ := hkept hnote.frame
    rw [henter.frame]
    exact hs₁
  · rintro f r₁ (⟨hsame, -⟩ | ⟨hnote, -⟩)
    · rw [hsame]
      exact hr
    · exact hkept hnote.frame

/-- A gather of `roots` that succeeds leaves the lists that its survey made. -/
theorem triple_gather_listed (hhost : s.host = h.toHost) (hstrings : s.internedStrings = [])
    (hdescriptors : s.typeDescriptors = []) (roots : List Word) :
    Triple (· = s) (gather roots)
      (fun _ s' => ∀ w, s'.Lists w ↔ s.Surveys h roots w ∧ s.Heads h w) (fun _ _ => True) := by
  let P (s' : Session) : Prop := ∀ w, s'.Lists w ↔ s.Surveys h roots w ∧ s.Heads h w
  refine (triple_gather_surveyed (P := P) (E := fun _ _ => True) roots (fun _ => trivial)
    (fun _ _ _ _ => trivial) (fun _ s₁ hsurveyed w => ?_) fun _ s₁ _ root _ r hr => ?_).conseq
    (fun _ hs => hs) ?_ fun _ _ _ => trivial
  · rw [← listed_iff hhost hstrings hdescriptors hsurveyed, List.mem_append, or_comm]
    rfl
  · refine (keeps_lists_visit r.session.internedStrings r.session.typeDescriptors s₁.host root).use
      ⟨rfl, rfl⟩ (fun _ r' hkept w => ?_) fun _ _ _ => trivial
    rw [← hr w]
    unfold Session.Lists
    rw [hkept.1, hkept.2]
  · rintro _ _ ⟨-, s₁, hP, rfl⟩
    exact hP

end SessionM

open SessionM

namespace Session

variable {h : Heap} {s : Session} {roots : List Word}

/-- After a gather from `roots` of a fresh session that succeeds, the descriptors and strings that
    are copied and to which there is a way from the roots, through replaced objects or not, are
    listed. Of these, those that are not replaced are entered to be copied, and the others are not
    entered. Whatever is entered is spared, or a listed object leads to it. So the lists and the
    entries agree about replaced objects if and only if all that is listed is spared. -/
theorem gather_agrees_iff (made : h.Made) {reservations : Reservations} {settings : Settings}
    {mapped? : Option (AddrRange .mapped)} {alive : Bool}
    (hbegin : begin h.toHost reservations settings mapped? alive = .ok s) (roots : List Word)
    (hok : ((gather roots).perform s).1 = .ok ()) :
    let s' := ((gather roots).perform s).2.session
    (∀ w, s'.Lists w ↔ s.Surveys h roots w ∧ s.Heads h w) ∧
    (∀ w, s'.Lists w → h.toHost.hasSubstitute w = false →
      ∃ e, s'.catalog.get? w = some e ∧ e.disposition = .copy) ∧
    (∀ w, s'.Lists w → h.toHost.hasSubstitute w = true → s'.catalog.get? w = none) ∧
    (∀ w e, s'.catalog.get? w = some e →
      h.Spares roots w ∨ ∃ head, s'.Lists head ∧ h.Spares [head] w) ∧
    (s'.Agrees h roots ↔ ∀ w, s'.Lists w → h.Spares roots w) := by
  intro s'
  have hexact : s.ExactlyGathered h roots s' := gather_exact made hbegin roots hok
  have hlists : ∀ w, s'.Lists w ↔ s.Surveys h roots w ∧ s.Heads h w := by
    obtain ⟨-, d?, -, rfl⟩ := begin_eq_ok hbegin
    exact (triple_gather_listed rfl rfl rfl roots).on_eq_ok (r := ⟨_, #[]⟩) rfl hok
  have hcopies : ∀ w, s'.Lists w → h.toHost.hasSubstitute w = false →
      ∃ e, s'.catalog.get? w = some e ∧ e.disposition = .copy := by
    intro w hw hplain
    obtain ⟨hsurveys, hheads⟩ := (hlists w).1 hw
    exact hexact.copies (.start hsurveys.1 (.inr ⟨hsurveys, hheads⟩)) hplain hheads
  have hentered : ∀ w e, s'.catalog.get? w = some e →
      h.Spares roots w ∨ ∃ head, s'.Lists head ∧ h.Spares [head] w := by
    intro w e he
    obtain ⟨hfinds, hplain⟩ := (hexact.entered w).1 ⟨e, he⟩
    exact hfinds.spares hplain fun w => (hlists w).2
  refine ⟨hlists, hcopies, fun w _ hsub => ?_, hentered, fun hagrees w hw => ?_, fun hspares =>
    ⟨fun w hw => hcopies w hw (hspares w hw).1, fun w e he => ?_⟩⟩
  · refine Option.eq_none_iff_forall_ne_some.2 fun e he => ?_
    exact nomatch hsub.symm.trans ((hexact.entered w).1 ⟨e, he⟩).2
  · obtain ⟨e, he, -⟩ := hagrees.listed w hw
    exact hagrees.entered w e he
  · rcases hentered w e he with hw | ⟨head, hhead, hw⟩
    · exact hw
    · exact hw.join (hspares head hhead)

/-- From the replaced object alone the string is listed and entered, so there is no agreement. -/
theorem gather_agrees_iff_stray :
    begin strayHeap.toHost ⟨⟨0x20000⟩, 0x1000, room_fits⟩ ⟨0x8000, 8, 0, false⟩ none false =
      .ok strayFresh ∧
    ((gather [0x100000000018]).perform strayFresh).1 = .ok () ∧
    (((gather [0x100000000018]).perform strayFresh).2.session.catalog.get?
      0x100000000020).isSome = true ∧
    strayHeap.toHost.hasSubstitute 0x100000000018 = true ∧
    ¬((gather [0x100000000018]).perform strayFresh).2.session.Agrees strayHeap [0x100000000018] := by
  have hbegin : begin strayHeap.toHost ⟨⟨0x20000⟩, 0x1000, room_fits⟩ ⟨0x8000, 8, 0, false⟩ none false =
      .ok strayFresh := begin_fresh (by decide +kernel)
  have hok : ((gather [0x100000000018]).perform strayFresh).1 = .ok () :=
    eq_ok_of_toOption (by decide +kernel)
  obtain ⟨-, -, -, -, hagrees⟩ := gather_agrees_iff strayHeap_made hbegin [0x100000000018] hok
  have hlisted : ((gather [0x100000000018]).perform strayFresh).2.session.internedStrings =
      [0x100000000020] := by decide +kernel
  have hsub : strayHeap.toHost.hasSubstitute 0x100000000018 = true := by decide +kernel
  refine ⟨hbegin, hok, by decide +kernel, hsub, fun h => ?_⟩
  have hspares := hagrees.1 h 0x100000000020 (.inr (hlisted ▸ List.mem_singleton_self _))
  have hroot := hspares.mem_roots fun root hroot => by rwa [List.mem_singleton.1 hroot]
  exact absurd hroot (by decide)

end Session

end SnapshotArchive
