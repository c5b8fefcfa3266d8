import Mathlib.Data.List.Sort
import Mathlib.Logic.Relation
import SnapshotArchive.Proofs.Finishing
import SnapshotArchive.Proofs.Replacements
import SnapshotArchive.Proofs.Surveying

/-!
What gathering reaches. A survey sees exactly the objects to which there is a way from the roots through
objects that are copied, replaced or not. The search starts at the roots and at the descriptors and strings
that were seen; it enters or, if they are replaced, notes exactly the objects to which there is a way from
these through objects that are copied and not replaced.
-/

namespace SnapshotArchive

namespace Heap

variable {h : Heap} {opens starts P : Word → Prop} {a t w : Word} {i : Nat}

/-- The object at `a` is open, and holds the address of the one at `t`. -/
def Passes (h : Heap) (opens : Word → Prop) (a t : Word) : Prop := opens a ∧ ∃ i, h.Holds a i t

/-- There is a way to the object at `w` from one of `starts`, through objects that `opens` admits
    alone. -/
def Reaches (h : Heap) (opens starts : Word → Prop) (w : Word) : Prop :=
  (h.object? w).isSome = true ∧ ∃ root, starts root ∧ Relation.ReflTransGen (h.Passes opens) root w

theorem Reaches.start (hsome : (h.object? w).isSome = true) (hstart : starts w) :
    h.Reaches opens starts w := ⟨hsome, w, hstart, .refl⟩

theorem Reaches.pass (hr : h.Reaches opens starts a) (hopen : opens a) (hholds : h.Holds a i t) :
    h.Reaches opens starts t := by
  obtain ⟨-, root, hstart, hpath⟩ := hr
  obtain ⟨_, _, _, _, _, hsome⟩ := id hholds
  exact ⟨hsome, root, hstart, hpath.tail ⟨hopen, i, hholds⟩⟩

/-- What holds of the starts, and of what is held by each open object of which it holds, holds of a
    `w` that is reached. -/
theorem Reaches.find (hr : h.Reaches opens starts w)
    (hstart : ∀ w, starts w → (h.object? w).isSome = true → P w)
    (hpass : ∀ a i t, P a → opens a → h.Holds a i t → P t) : P w := by
  obtain ⟨hsome, root, hroot, hpath⟩ := hr
  induction hpath with
  | refl => exact hstart root hroot hsome
  | tail _ hlast ih =>
    obtain ⟨hopen, i, hholds⟩ := hlast
    obtain ⟨o, ho, -⟩ := id hholds
    exact hpass _ i _ (ih (by rw [ho]; rfl)) hopen hholds

/-- The offsets of the pointer fields of the object at `w` that hold the address of an object. -/
def heldOffsets (h : Heap) (w : Word) : List Nat :=
  match h.object? w with
  | none => []
  | some o =>
    (o.fields.keys.filter fun i => (h.object? (h.memory.read (o.start + i))).isSome).map (wordBytes * ·)

theorem pairwise_heldOffsets (h : Heap) (w : Word) : (h.heldOffsets w).Pairwise (· < ·) := by
  unfold heldOffsets
  split
  · exact List.Pairwise.nil
  · rename_i o _
    refine List.pairwise_map.2 ((o.fields.ordered_keys.filter _).imp fun hlt => ?_)
    exact Nat.mul_lt_mul_of_pos_left (Nat.compare_eq_lt.1 hlt) (by decide)

/-- If its fields are words of the object, they are the offsets `wordBytes * i` of what it holds. -/
theorem mem_heldOffsets {held : List Edge} (hedges : h.edges w = .ok held) {n : Nat} :
    n ∈ h.heldOffsets w ↔ ∃ i t, h.Holds w i t ∧ n = wordBytes * i := by
  unfold heldOffsets Holds
  rcases edges_eq_ok hedges with ⟨hnone, -⟩ | ⟨o, ho, hinside, -⟩
  · simp [hnone]
  · simp only [ho, List.mem_map, List.mem_filter, Std.TreeMap.mem_keys, Option.some.injEq]
    constructor
    · rintro ⟨i, ⟨hi, hsome⟩, rfl⟩
      exact ⟨i, _, ⟨o, rfl, hi, hinside i hi, rfl, hsome⟩, rfl⟩
    · rintro ⟨i, t, ⟨_, rfl, hi, -, rfl, hsome⟩, rfl⟩
      exact ⟨i, ⟨hi, hsome⟩, rfl⟩

end Heap

namespace Session

variable {h : Heap} {s s₀ s₁ s₂ : Session} {roots ahead : List Word} {pending rest : List Edge} {e : Edge}
  {x : Visit} {v v' : Survey} {w : Word}

/-- There is a way to an object from `roots`, through objects that are copied. -/
def Surveys (h : Heap) (s : Session) (roots : List Word) : Word → Prop :=
  h.Reaches (s.Takes h) (· ∈ roots)

/-- The object at `w` is a descriptor or an interned string that is copied. -/
def Heads (h : Heap) (s : Session) (w : Word) : Prop :=
  ∃ o, h.object? w = some o ∧ s.classify (Heap.rootEdge w o) = .copy ∧
    (o.kind.isTypeDescriptor = true ∨ o.kind = .internedString)

/-- A search begins at `roots` and at the descriptors and strings that a survey sees. -/
def Begins (h : Heap) (s : Session) (roots : List Word) (w : Word) : Prop :=
  w ∈ roots ∨ s.Surveys h roots w ∧ s.Heads h w

/-- The object at `w` is copied and not replaced. -/
def Opens (h : Heap) (s : Session) (w : Word) : Prop :=
  s.Takes h w ∧ h.toHost.hasSubstitute w = false

/-- There is a way to an object from where a search begins, through objects that are copied and not
    replaced. -/
def Finds (h : Heap) (s : Session) (roots : List Word) : Word → Prop :=
  h.Reaches (s.Opens h) (s.Begins h roots)

theorem heads_iff (ht : h.Targets e) : s.Heads h e.pointee ↔
    s.classify e = .copy ∧ (e.kind.isTypeDescriptor = true ∨ e.kind = .internedString) := by
  obtain ⟨o, ho, hkind, -⟩ := ht
  unfold Heads
  simp only [ho, Option.some.injEq, exists_eq_left', classify_rootEdge hkind, hkind]

/-- What the survey `v` saw is reached, and what it lists as first roots are the descriptors and
    strings among that. -/
structure Survey.Exact (h : Heap) (s : Session) (roots : List Word) (pending : List Edge) (v : Survey) :
    Prop where
  reached : ∀ w, v.Meets pending w → s.Surveys h roots w
  seeds : ∀ w, w ∈ v.strings.toList ∨ w ∈ v.descriptors.toList ↔ v.seen.contains w = true ∧ s.Heads h w

theorem SurveyStep.seeds (hstep : SurveyStep s e v x v') (ht : h.Targets e)
    (hseeds : ∀ w, w ∈ v.strings.toList ∨ w ∈ v.descriptors.toList ↔
      v.seen.contains w = true ∧ s.Heads h w) (w : Word) :
    w ∈ v'.strings.toList ∨ w ∈ v'.descriptors.toList ↔ v'.seen.contains w = true ∧ s.Heads h w := by
  rw [hstep.seen_iff, or_and_right]
  cases hstep with
  | known old =>
    rw [hseeds, or_iff_left_of_imp]
    rintro ⟨rfl, hheads⟩
    exact ⟨old, hheads⟩
  | counted _ fate =>
    rw [Survey.seeds_count]
    refine or_congr (hseeds w) ⟨?_, ?_⟩
    · rintro ⟨rfl, hkind⟩
      exact ⟨rfl, (heads_iff ht).2 ⟨fate, hkind⟩⟩
    · rintro ⟨rfl, hheads⟩
      exact ⟨rfl, ((heads_iff ht).1 hheads).2⟩
  | left _ fate =>
    have hnot : ¬(e.pointee = w ∧ s.Heads h w) := by
      rintro ⟨rfl, hheads⟩
      exact fate ((heads_iff ht).1 hheads).1
    rw [or_iff_left hnot]
    exact hseeds w

/-- The survey of a reference goes on along a way to its target. -/
theorem exact_survey (h : Heap) (s : Session) (roots : List Word) :
    SurveyKeeps h s (Survey.Exact h s roots) := by
  intro e rest v x v' ht hI hstep
  have htarget : s.Surveys h roots e.pointee := hI.reached _ (.inr ⟨e, List.mem_cons_self .., rfl⟩)
  have hseen : ∀ w, v'.seen.contains w = true → s.Surveys h roots w := by
    intro w hw
    rcases (hstep.seen_iff w).1 hw with hold | rfl
    · exact hI.reached w (.inl hold)
    · exact htarget
  have hrest : ∀ y ∈ rest, s.Surveys h roots y.pointee := fun y hy =>
    hI.reached _ (.inr ⟨y, List.mem_cons_of_mem _ hy, rfl⟩)
  have hseeds := hstep.seeds ht hI.seeds
  cases x with
  | skip =>
    refine ⟨fun w hw => ?_, hseeds⟩
    rcases hw with hw | ⟨y, hy, rfl⟩
    · exact hseen w hw
    · exact hrest y hy
  | recurse =>
    refine fun held hheld => ⟨fun w hw => ?_, hseeds⟩
    rcases hw with hw | ⟨y, hy, rfl⟩
    · exact hseen w hw
    rcases List.mem_append.1 hy with hy | hy
    · obtain ⟨i, hholds, -⟩ := Heap.holds_of_mem_edges hheld hy
      cases hstep with
      | counted _ fate => exact htarget.pass ((takes_iff ht).2 fate) hholds
    · exact hrest y hy

theorem Survey.Exact.addRoot {root : Word} (hroot : root ∈ roots) {o : HeapObject}
    (ho : h.object? root = some o) (hI : Survey.Exact h s roots [] v) :
    Survey.Exact h s roots [Heap.rootEdge root o] v := by
  refine ⟨fun w hw => ?_, hI.seeds⟩
  rcases hw with hw | ⟨e, he, rfl⟩
  · exact hI.reached w (.inl hw)
  · obtain rfl := List.mem_singleton.1 he
    exact .start (Option.isSome_iff_exists.2 ⟨o, ho⟩) hroot

theorem Survey.Exact.empty (estimate : SizeEstimate) : Survey.Exact h s roots []
    { seen := ∅, descriptors := #[], strings := #[], estimate := estimate } := by
  have hnone : ∀ w, (∅ : Std.TreeSet Word).contains w = false := fun w => Std.TreeSet.contains_emptyc
  refine ⟨fun w hw => ?_, fun w => by simp⟩
  rcases hw with hw | ⟨_, he, -⟩
  · rw [hnone] at hw
    cases hw
  · cases he

/-- What a survey lists as first roots are the descriptors and strings `w` among what is reached
    from `roots`. -/
theorem listed_iff (hhost : s.host = h.toHost) (hstrings : s.internedStrings = [])
    (hdescriptors : s.typeDescriptors = []) (hsurveyed : SessionM.Surveyed roots s s₁) (w : Word) :
    w ∈ s₁.internedStrings ++ s₁.typeDescriptors ↔ s.Surveys h roots w ∧ s.Heads h w := by
  obtain ⟨-, v, hrun, hstringsPerm, hdescriptorsPerm, -⟩ := hsurveyed
  obtain ⟨hsurvey, hexact⟩ := surveying_keeping (J := Survey.Exact h s roots) hhost hstrings hdescriptors
    (exact_survey h s roots) (fun _ hroot _ _ ho hI => hI.addRoot hroot ho) (.empty _) hrun
  have hseen : v.seen.contains w = true ↔ s.Surveys h roots w := by
    refine ⟨fun hw => hexact.reached w (.inl hw), fun hw =>
      Heap.Reaches.find (P := fun w => v.seen.contains w = true) hw (fun w hw hsome => ?_) ?_⟩
    · exact (hsurvey.roots w hw hsome).resolve_right nofun
    · exact fun a i t ha htakes hholds => (hsurvey.held a i t ha htakes hholds).resolve_right nofun
  rw [List.mem_append, hstringsPerm.mem_iff, hdescriptorsPerm.mem_iff, hexact.seeds w, hseen]

/-- A survey sees what is reached from `roots`, so the search begins where it should. -/
theorem begins_iff (hhost : s.host = h.toHost) (hstrings : s.internedStrings = [])
    (hdescriptors : s.typeDescriptors = []) (hsurveyed : SessionM.Surveyed roots s s₁) (w : Word) :
    w ∈ s₁.internedStrings ++ s₁.typeDescriptors ++ roots ↔ s.Begins h roots w := by
  rw [List.mem_append, listed_iff hhost hstrings hdescriptors hsurveyed, or_comm]
  rfl

/-- The object at `w` was entered, or noted as replaced, or a reference of `pending` leads to it. -/
def Meets (s : Session) (pending : List Edge) (w : Word) : Prop :=
  (s.catalog.get? w).isSome = true ∨ w ∈ s.replaced ∨ ∃ e ∈ pending, e.pointee = w

/-- A search from where it should begin is under way: all it came across is reached, and all it
    began with was met or is still `ahead`. -/
structure Finding (h : Heap) (s₀ : Session) (roots ahead : List Word) (pending : List Edge) (s : Session) :
    Prop where
  fate : ∀ e, s.classify e = s₀.classify e
  reached : ∀ e ∈ pending, s₀.Finds h roots e.pointee
  entered : ∀ w e, s.catalog.get? w = some e → s₀.Finds h roots w ∧
    ∃ o, h.object? w = some o ∧ e.disposition = s₀.classify (Heap.rootEdge w o)
  replaced : ∀ w ∈ s.replaced, s₀.Finds h roots w
  inside : ∀ w e, s.catalog.get? w = some e → e.isCopied = true → ∃ held, h.edges w = .ok held
  begun : ∀ w, s₀.Begins h roots w → (h.object? w).isSome = true → w ∈ ahead ∨ s.Meets pending w

end Session

namespace SessionM

open Session

variable {h : Heap} {s s₀ s₁ s₂ : Session} {roots ahead : List Word} {pending rest : List Edge} {e : Edge}
  {v : Visit} {w : Word}

theorem NoteStep.finding (hnote : NoteStep s e s₁) (hkept : s.books.Kept)
    (hf : Finding h s₀ roots ahead pending s) : Finding h s₀ roots ahead pending s₁ where
  fate x := by
    rw [hnote.frame]
    exact hf.fate x
  reached := hf.reached
  entered w x hx := by
    obtain ⟨y, flag, hy, rfl⟩ := hnote.entry hkept hx
    exact hf.entered w y hy
  replaced := by
    rw [hnote.replaced]
    exact hf.replaced
  inside w x hx hcopied := by
    obtain ⟨y, flag, hy, rfl⟩ := hnote.entry hkept hx
    exact hf.inside w y hy hcopied
  begun w hbegins hsome := by
    refine (hf.begun w hbegins hsome).imp_right fun hmet => ?_
    unfold Meets
    rw [hnote.replaced]
    exact hmet.imp_left (hnote.entered hkept)

/-- Entering `e.pointee` takes its reference off those that are pending. -/
theorem EnterStep.meets (henter : EnterStep s e v s₁) {rest' : List Edge} (hrest : rest ⊆ rest')
    (hmet : s.Meets (e :: rest) w) : s₁.Meets rest' w := by
  rcases hmet with hold | hold | ⟨x, hx, rfl⟩
  · exact .inl (henter.entered hold)
  · exact .inr (.inl (henter.mem_replaced.2 (.inl hold)))
  · rcases List.mem_cons.1 hx with rfl | hx
    · refine henter.knows_target.imp_right fun hsub => .inl (henter.mem_replaced.2 (.inr ⟨rfl, ?_⟩))
      rwa [henter.host] at hsub
    · exact .inr (.inr ⟨x, hrest hx, rfl⟩)

/-- What is looked into, `e.pointee`, is not replaced. -/
theorem EnterStep.plain (henter : EnterStep s e .recurse s₁) : s.host.hasSubstitute e.pointee = false := by
  cases henter with
  | accepted plain => exact plain

/-- Entering `e.pointee` goes on along a way to it. -/
theorem EnterStep.finding (henter : EnterStep s e v s₁) (hhost : s.host = h.toHost) (ht : h.Targets e)
    (hf : Finding h s₀ roots ahead (e :: rest) s) :
    h.toHost.Leaves (Finding h s₀ roots ahead) e rest v s₁ := by
  obtain ⟨htarget, hrest⟩ := List.forall_mem_cons.1 hf.reached
  have hfate : ∀ x, s₁.classify x = s₀.classify x := by
    rw [henter.frame]
    exact hf.fate
  have hentered : ∀ w x, s₁.catalog.get? w = some x → s₀.Finds h roots w ∧
      ∃ o, h.object? w = some o ∧ x.disposition = s₀.classify (Heap.rootEdge w o) := by
    intro w x hx
    rcases henter.entry hx with hold | ⟨rfl, bits?, rfl⟩
    · exact hf.entered w x hold
    · obtain ⟨o, ho, hkind, -⟩ := ht
      exact ⟨htarget, o, ho, (hf.fate e).trans (classify_rootEdge hkind).symm⟩
  have hreplaced : ∀ w ∈ s₁.replaced, s₀.Finds h roots w := by
    intro w hw
    rcases henter.mem_replaced.1 hw with hold | ⟨rfl, -⟩
    · exact hf.replaced w hold
    · exact htarget
  cases v with
  | skip =>
    exact ⟨hfate, hrest, hentered, hreplaced, fun w x hx hcopied => hf.inside w x (henter.skip hx hcopied)
      hcopied, fun w hbegins hsome => (hf.begun w hbegins hsome).imp_right (henter.meets fun _ => id)⟩
  | recurse =>
    intro held hheld
    refine ⟨hfate, List.forall_mem_append.2 ⟨fun x hx => ?_, hrest⟩, hentered, hreplaced,
      fun w x hx hcopied => ?_, fun w hbegins hsome => (hf.begun w hbegins hsome).imp_right
        (henter.meets (List.subset_append_right ..))⟩
    · obtain ⟨i, hholds, -⟩ := Heap.holds_of_mem_edges hheld hx
      have htakes : s₀.Takes h e.pointee := (takes_iff ht).2 ((hf.fate e).symm.trans henter.fate)
      exact htarget.pass ⟨htakes, hhost ▸ henter.plain⟩ hholds
    · rcases henter.entry hx with hold | ⟨rfl, -⟩
      · exact hf.inside w x hold hcopied
      · exact ⟨held, hheld⟩

/-- What a search keeps by `J`, beside what it finds, of the roots that are ahead and of the
    references that are pending, and how it may fail. -/
structure SearchKeeps (h : Heap) (s₀ : Session) (roots : List Word)
    (J : List Word → List Edge → Session → Prop) (E : Failure → Session → Prop) : Prop where
  survey : Triple (· = s₀) (gatherSeeds roots) (fun _ => Surveyed roots s₀) E
  seeds : ∀ s, Surveyed roots s₀ s → J (s.internedStrings ++ s.typeDescriptors ++ roots) [] s
  missing : ∀ root ahead s, h.object? root = none → J (root :: ahead) [] s → J ahead [] s
  root : ∀ root ahead o s, s₀.Begins h roots root → h.object? root = some o → J (root :: ahead) [] s →
    J ahead [Heap.rootEdge root o] s
  report : ∀ ahead e rest s, Sifting h s₀ (e :: rest) s → Finding h s₀ roots ahead (e :: rest) s →
    J ahead (e :: rest) s → Triple (· = s) (registerEdge e) (h.toHost.Leaves (J ahead) e rest) E
  fault : ∀ f s, E (.fault f) s

/-- A search is under way: it has kept to what the books say, to what it may find, and to `J`. -/
def Seeking (h : Heap) (s₀ : Session) (roots : List Word) (J : List Word → List Edge → Session → Prop)
    (ahead : List Word) (pending : List Edge) (s : Session) : Prop :=
  Sifting h s₀ pending s ∧ Finding h s₀ roots ahead pending s ∧ J ahead pending s

variable {J : List Word → List Edge → Session → Prop} {E : Failure → Session → Prop}

/-- A report of the next reference `e` keeps a search under way. -/
theorem triple_report_finding (hs : h.Sound) (hkeeps : SearchKeeps h s₀ roots J E)
    (hI : Seeking h s₀ roots J ahead (e :: rest) s) :
    Triple (· = s) (registerEdge e)
      (Host.Reported h.toHost (Seeking h s₀ roots J ahead) (unmet h) E e rest (unmet h s)) E := by
  obtain ⟨hsifting, hf, hJ⟩ := hI
  have hc := hsifting.1.searched.cataloged
  have ht := (hsifting.1.reports e (List.mem_cons_self ..)).1
  refine (((triple_report_sifting hs hsifting).and (triple_registerEdge s e)).and
    (hkeeps.report ahead e rest s hsifting hf hJ)).conseq (fun _ h => ⟨⟨h, h⟩, h⟩) ?_ fun _ _ h => h.2
  rintro v s₂ ⟨⟨hreported, s₁, hnote, henter⟩, hleaves⟩
  have hfinding := henter.finding (hnote.host.trans hc.host) ht (hnote.finding hc.kept hf)
  exact hreported.and (hfinding.and hleaves) fun f => hkeeps.fault f s₂

/-- A visit of the next `root` keeps a search under way. -/
theorem triple_visit_finding (hs : h.Sound) (hkeeps : SearchKeeps h s₀ roots J E) {root : Word}
    (hbegins : s₀.Begins h roots root) :
    Triple (Seeking h s₀ roots J (root :: ahead) []) (h.toHost.visit root registerEdge)
      (fun _ => Seeking h s₀ roots J ahead []) E := by
  rintro r ⟨hsifting, hf, hJ⟩
  refine (Host.triple_visit (s := r.session) (I := Seeking h s₀ roots J ahead) (unmet h)
    (fun e rest s hI => triple_report_finding hs hkeeps hI)
    (fun hnone => ⟨hsifting, ?_, hkeeps.missing root ahead _ (Option.map_eq_none_iff.1 hnone) hJ⟩)
    (fun e he => ⟨⟨searching_root hsifting.1 he, hsifting.2⟩, ?_⟩) (h.unmetFields_le _)).use rfl
    (fun _ _ h => h) fun _ _ h => h
  · refine ⟨hf.fate, hf.reached, hf.entered, hf.replaced, hf.inside, fun w hw hsome => ?_⟩
    rcases hf.begun w hw hsome with hahead | hmet
    · refine (List.mem_cons.1 hahead).elim (fun hroot => ?_) .inl
      rw [hroot, Option.map_eq_none_iff.1 hnone] at hsome
      cases hsome
    · exact .inr hmet
  · obtain ⟨o, ho, rfl⟩ := Option.map_eq_some_iff.1 he
    refine ⟨⟨hf.fate, fun x hx => ?_, hf.entered, hf.replaced, hf.inside, fun w hw hsome => ?_⟩,
      hkeeps.root root ahead o _ hbegins ho hJ⟩
    · obtain rfl := List.mem_singleton.1 hx
      exact .start (Option.isSome_iff_exists.2 ⟨o, ho⟩) hbegins
    · rcases hf.begun w hw hsome with hahead | hmet | hmet | ⟨_, hx, -⟩
      · refine (List.mem_cons.1 hahead).elim (fun hroot => ?_) .inl
        exact .inr (.inr (.inr ⟨_, List.mem_singleton_self _, hroot.symm⟩))
      · exact .inr (.inl hmet)
      · exact .inr (.inr (.inl hmet))
      · cases hx

/-- Before the first visit all that the search begins with in `s₁` is ahead. -/
theorem finding_seeds (hhost : s.host = h.toHost) (hstrings : s.internedStrings = [])
    (hdescriptors : s.typeDescriptors = []) (hnone : ∀ w, s.catalog.get? w = none)
    (hreplaced : ∀ w, w ∉ s.replaced) (hsurveyed : Surveyed roots s s₁) :
    Finding h s roots (s₁.internedStrings ++ s₁.typeDescriptors ++ roots) [] s₁ := by
  have hbegins := fun w => (begins_iff hhost hstrings hdescriptors hsurveyed w).2
  obtain ⟨⟨descriptors, strings, estimate, rfl⟩, -⟩ := hsurveyed
  have hempty : ∀ w e, s.catalog.get? w ≠ some e := fun w e he => nomatch (hnone w).symm.trans he
  exact ⟨fun _ => rfl, nofun, fun w e he => absurd he (hempty w e), fun w hw => absurd hw (hreplaced w),
    fun w e he => absurd he (hempty w e), fun w hw _ => .inl (hbegins w hw)⟩

/-- A gather of a fresh session that succeeds has met all it began with, and left nothing
    pending. -/
theorem triple_gather_search (hs : h.Sound) {reservations : Reservations} {settings : Settings}
    {d? : Option Dependency} {roots : List Word}
    (hkeeps : SearchKeeps h (fresh h.toHost reservations settings d?) roots J E) :
    Triple (· = fresh h.toHost reservations settings d?) (gather roots)
      (fun _ s' => ∃ s₁, Seeking h (fresh h.toHost reservations settings d?) roots J [] [] s₁ ∧
        s' = { s₁ with stage := .gathered }) E := by
  obtain ⟨hcataloged, hgrounded, -⟩ := cataloged_fresh h reservations settings d?
  have hsifted := sifted_fresh h reservations settings d?
  have hbegins : ∀ s₁, Surveyed roots (fresh h.toHost reservations settings d?) s₁ → ∀ w, _ := fun _ =>
    begins_iff (h := h) rfl rfl rfl
  have hfinding : ∀ s₁, Surveyed roots (fresh h.toHost reservations settings d?) s₁ → _ := fun _ =>
    finding_seeds (h := h) rfl rfl rfl Catalog.get?_empty nofun
  have hnew : (fresh h.toHost reservations settings d?).stage = .new := rfl
  generalize fresh h.toHost reservations settings d? = s at *
  refine (triple_gather_visits (P := fun ahead => Seeking h s roots J ahead []) roots (absurd hnew)
    (fun _ => hkeeps.survey) (fun _ s₁ hs₁ => ⟨?_, hfinding s₁ hs₁, hkeeps.seeds s₁ hs₁⟩)
    fun _ s₁ hs₁ root ahead hroot => ?_).conseq (fun _ hs => hs) ?_ fun _ _ h => h
  · refine ⟨searching_seeds hcataloged hgrounded hs₁.1, ?_⟩
    obtain ⟨_, _, _, rfl⟩ := hs₁.1
    exact ⟨hsifted.entries, hsifted.former, hsifted.nodup, hsifted.noted, hsifted.unclaimed⟩
  · have hhost : s₁.host = h.toHost := by
      obtain ⟨_, _, _, rfl⟩ := hs₁.1
      exact hcataloged.host
    rw [hhost]
    exact triple_visit_finding hs hkeeps ((hbegins s₁ hs₁ root).1 hroot)
  · rintro _ s' ⟨-, s₁, hseeking, rfl⟩
    exact ⟨s₁, hseeking, rfl⟩

/-- Nothing more need be kept of `s`. -/
theorem searchKeeps_trivial (h : Heap) (s : Session) (roots : List Word) :
    SearchKeeps h s roots (fun _ _ _ => True) (fun _ _ => True) where
  survey := (triple_gatherSeeds s roots).conseq (fun _ h => h) (fun _ _ h => h) fun _ _ _ => trivial
  seeds _ _ := trivial
  missing _ _ _ _ _ := trivial
  root _ _ _ _ _ _ _ := trivial
  report _ e _ s _ _ _ := (triple_registerEdge s e).conseq (fun _ h => h)
    (fun v _ _ => match v with | .skip => trivial | .recurse => fun _ _ => trivial) fun _ _ _ => trivial
  fault _ _ := trivial

end SessionM

open SessionM

namespace Session

variable {h : Heap} {s s₁ : Session} {roots : List Word}

/-- The books of `s'` hold what is found, as it is classified, with the pointers that it holds. -/
structure ExactlyGathered (h : Heap) (s : Session) (roots : List Word) (s' : Session) : Prop where
  entered : ∀ w, (∃ e, s'.catalog.get? w = some e) ↔
    s.Finds h roots w ∧ h.toHost.hasSubstitute w = false
  entry : ∀ w e, s'.catalog.get? w = some e → e.source = w ∧ e.isAlias = false ∧
    ∃ o, h.object? w = some o ∧ e.kind = o.kind ∧ e.size = o.size ∧
      e.disposition = s.classify (Heap.rootEdge w o)
  listed : ∀ w kind, w ∈ s'.books.sources kind ↔ ∃ e, s'.catalog.get? w = some e ∧
    e.disposition = .copy ∧ RegionKind.ofReadOnly e.readOnly = kind
  listedOnce : ∀ kind, (s'.books.sources kind).Nodup
  offsets : ∀ w e, s'.catalog.get? w = some e → e.disposition = .copy →
    (s'.copyList (.ofReadOnly e.readOnly)).pointerOffsets e = h.heldOffsets w
  replaced : ∀ w, w ∈ s'.replaced ↔ s.Finds h roots w ∧ h.toHost.hasSubstitute w = true
  replacedOnce : s'.replaced.toList.Nodup

/-- Whatever is found, such as `w`, was entered, or noted as replaced. -/
theorem Finding.found (hf : Finding h s roots [] [] s₁) (hsifting : Sifting h s [] s₁)
    (hsettled : Settled h s) {w : Word} (hw : s.Finds h roots w) :
    (s₁.catalog.get? w).isSome = true ∨ w ∈ s₁.replaced := by
  obtain ⟨hsearch, hsifted⟩ := hsifting
  have hhost := hsearch.searched.cataloged.host
  refine Heap.Reaches.find (P := fun w => (s₁.catalog.get? w).isSome = true ∨ w ∈ s₁.replaced) hw
    (fun w hw hsome => ?_) fun a i t ha hopen hholds => ?_
  · rcases hf.begun w hw hsome with hahead | hmet | hmet | ⟨_, hx, -⟩
    · cases hahead
    · exact .inl hmet
    · exact .inr hmet
    · cases hx
  · obtain ⟨⟨o, ho, hfate⟩, hplain⟩ := hopen
    rcases ha with ha | ha
    · obtain ⟨e, he⟩ := Option.isSome_iff_exists.1 ha
      obtain ⟨-, o', ho', hsame⟩ := hf.entered a e he
      obtain rfl := Option.some_inj.1 (ho.symm.trans ho')
      -- The object is copied, so its field was noted; and what a noted field leads to is known.
      have hnotes := hsearch.settled_iff.2 hsettled a e he (decide_eq_true (hsame.trans hfate)) i t hholds
      obtain ⟨t', hholds', hknows⟩ := hsearch.searched.grounded a i hnotes
      obtain rfl := hholds.unique hholds'
      exact hknows.imp_right (hsifted.noted a i t hnotes hholds)
    · have hsub := hsifted.former a ha
      rw [hhost, hplain] at hsub
      cases hsub

theorem Finding.exactlyGathered (hf : Finding h s roots [] [] s₁) (hsifting : Sifting h s [] s₁)
    (hsettled : Settled h s) : ExactlyGathered h s roots s₁ := by
  have hfound : ∀ w, s.Finds h roots w → _ := fun w => hf.found hsifting hsettled
  obtain ⟨hsearch, hsifted⟩ := hsifting
  have hc := hsearch.searched.cataloged
  have hplain : ∀ w, (s₁.catalog.get? w).isSome = true → h.toHost.hasSubstitute w = false := fun w hw =>
    hc.host ▸ hsifted.entries w hw
  have hformer : ∀ w ∈ s₁.replaced, h.toHost.hasSubstitute w = true := fun w hw =>
    hc.host ▸ hsifted.former w hw
  refine ⟨fun w => ⟨?_, ?_⟩, fun w e he => ?_, fun w kind => ⟨fun hw => ?_, ?_⟩, hc.kept.nodup,
    fun w e he hfate => ?_, fun w => ⟨fun hw => ⟨hf.replaced w hw, hformer w hw⟩, ?_⟩, hsifted.nodup⟩
  · rintro ⟨e, he⟩
    exact ⟨(hf.entered w e he).1, hplain w (Option.isSome_iff_exists.2 ⟨e, he⟩)⟩
  · rintro ⟨hw, hsub⟩
    rcases hfound w hw with hsome | hreplaced
    · exact Option.isSome_iff_exists.1 hsome
    · exact nomatch hsub.symm.trans (hformer w hreplaced)
  · obtain ⟨o, ho, hkind, hsize⟩ := hc.object w e he
    obtain ⟨-, o', ho', hsame⟩ := hf.entered w e he
    obtain rfl := Option.some_inj.1 (ho.symm.trans ho')
    exact ⟨hc.kept.keyed w e he, hc.filed.plain w e he, o, ho, hkind, hsize, hsame⟩
  · obtain ⟨e, he, hcopied, -, hkind⟩ := hc.kept.listed kind w hw
    exact ⟨e, he, of_decide_eq_true hcopied, hkind⟩
  · rintro ⟨e, he, hfate, rfl⟩
    exact hc.kept.enlisted w e he (decide_eq_true hfate) (hc.filed.plain w e he)
  · have hcopied : e.isCopied = true := decide_eq_true hfate
    obtain ⟨held, hheld⟩ := hf.inside w e he hcopied
    refine (CopyList.pairwise_pointerOffsets _ e).eq_of_mem_iff (h.pairwise_heldOffsets w) fun n => ?_
    rw [CopyList.mem_pointerOffsets, Heap.mem_heldOffsets hheld]
    constructor
    · rintro ⟨i, hnotes, rfl⟩
      obtain ⟨t, hholds, -⟩ := hsearch.searched.grounded w i ⟨e, he, hcopied, hnotes⟩
      exact ⟨i, t, hholds, Nat.mul_comm ..⟩
    · rintro ⟨i, t, hholds, rfl⟩
      obtain ⟨e', he', -, hnotes⟩ := hsearch.settled_iff.2 hsettled w e he hcopied i t hholds
      obtain rfl := Option.some_inj.1 (he.symm.trans he')
      exact ⟨i, hnotes, Nat.mul_comm ..⟩
  · rintro ⟨hw, hsub⟩
    refine (hfound w hw).resolve_left fun hsome => ?_
    exact nomatch hsub.symm.trans (hplain w hsome)

/-- A gather from `roots` of a fresh session that succeeds enters exactly what is found and not
    replaced, with all the pointers that it holds, and lists exactly what is found and replaced. -/
theorem gather_exact (made : h.Made) {reservations : Reservations} {settings : Settings}
    {mapped? : Option (AddrRange .mapped)} {alive : Bool}
    (hbegin : begin h.toHost reservations settings mapped? alive = .ok s) (roots : List Word)
    (hok : ((gather roots).perform s).1 = .ok ()) :
    s.ExactlyGathered h roots ((gather roots).perform s).2.session := by
  obtain ⟨-, d?, -, rfl⟩ := begin_eq_ok hbegin
  obtain ⟨-, -, hsettled⟩ := cataloged_fresh h reservations settings d?
  obtain ⟨_, -, s₁, ⟨hsifting, hf, -⟩, hafter⟩ | ⟨f, herror, -⟩ :=
    (triple_gather_search made.sound (searchKeeps_trivial h _ roots)).perform rfl
  · have hexact := hf.exactlyGathered hsifting hsettled
    rw [hafter]
    exact ⟨hexact.entered, hexact.entry, hexact.listed, hexact.listedOnce, hexact.offsets, hexact.replaced,
      hexact.replacedOnce⟩
  · exact nomatch hok.symm.trans herror

/-- A procedure that refers to a replaced object, which refers to a string, and to a short-lived object. -/
def strayHeap : Heap :=
  (Heap.create 0x100000000000 0).afterCalls
    [.alloc .procedure 3 none, .alloc .other 1 none, .alloc .internedString 1 none, .alloc .profileData 1 none,
      .setPointer 0x100000000000 1 (some 0x100000000018) none,
      .setPointer 0x100000000000 2 (some 0x100000000028) none,
      .setPointer 0x100000000018 0 (some 0x100000000020) none,
      .substitute 0x100000000018 0x100000000028]

theorem strayHeap_made : strayHeap.Made := (Heap.Made.create (by decide) (by decide)).afterCalls _

/-- A session over that heap. -/
def strayFresh : Session :=
  fresh strayHeap.toHost ⟨⟨0x20000⟩, 0x1000, room_fits⟩ ⟨0x8000, 8, 0, false⟩ none

/-- The string is entered, though the one way to it from the procedure is through the replaced object. -/
theorem gather_exact_stray :
    begin strayHeap.toHost ⟨⟨0x20000⟩, 0x1000, room_fits⟩ ⟨0x8000, 8, 0, false⟩ none false =
      .ok strayFresh ∧
    ((gather [0x100000000000]).perform strayFresh).1 = .ok () ∧
    strayFresh.ExactlyGathered strayHeap [0x100000000000]
      ((gather [0x100000000000]).perform strayFresh).2.session ∧
    strayFresh.Finds strayHeap [0x100000000000] 0x100000000020 ∧
    strayHeap.heldOffsets 0x100000000000 = [8, 16] := by
  have hbegin : begin strayHeap.toHost ⟨⟨0x20000⟩, 0x1000, room_fits⟩ ⟨0x8000, 8, 0, false⟩ none false =
      .ok strayFresh := begin_fresh (by decide +kernel)
  have hok : ((gather [0x100000000000]).perform strayFresh).1 = .ok () :=
    eq_ok_of_toOption (by decide +kernel)
  have hexact := gather_exact strayHeap_made hbegin [0x100000000000] hok
  have hstring : (((gather [0x100000000000]).perform strayFresh).2.session.catalog.get?
      0x100000000020).isSome = true := by decide +kernel
  exact ⟨hbegin, hok, hexact, ((hexact.entered _).1 (Option.isSome_iff_exists.1 hstring)).1,
    by decide +kernel⟩

end Session

end SnapshotArchive
