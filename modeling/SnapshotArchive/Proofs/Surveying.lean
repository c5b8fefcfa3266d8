import Mathlib.Algebra.Order.BigOperators.Group.List
import Mathlib.Algebra.Order.Group.Nat
import SnapshotArchive.Proofs.Copies
import SnapshotArchive.Proofs.Correspondence
import SnapshotArchive.Proofs.Gathering

/-!
What a survey counts. It sees all that is reached from the roots through objects that will be copied, and
counts each of these once. The search after it starts at what was seen and looks only into objects that
were looked into before, so it lists no object that was not counted: the estimate covers all copies.
-/

namespace SnapshotArchive

namespace Host

variable {σ : Type} {host : Host} {report : Edge → ExceptT Failure (StateM σ) Visit}
  {I : List Edge → σ → Prop} {weight : σ → Nat}

/-- A traversal that ends, with `fuel` enough, leaves nothing pending. -/
theorem walk_of_ok
    (h : ∀ e rest s v s', I (e :: rest) s → (report e).run.run s = (.ok v, s') →
      host.Lasts weight (weight s) e v s' ∧ host.Leaves I e rest v s') :
    ∀ (fuel : Nat) (pending : List Edge) (s s' : σ), I pending s → pending.length + weight s ≤ fuel →
      (host.walk report fuel pending).run.run s = (.ok (), s') → I [] s'
  | 0, pending, s, s', hI, hfuel, hrun => by
    obtain rfl : pending = [] := List.eq_nil_of_length_eq_zero (by omega)
    cases hrun
    exact hI
  | fuel + 1, [], s, s', hI, _, hrun => by
    cases hrun
    exact hI
  | fuel + 1, e :: rest, s, s', hI, hfuel, hrun => by
    rw [List.length_cons] at hfuel
    rw [walk, Lockstep.run_bind] at hrun
    rcases hreport : (report e).run.run s with ⟨f | v, t⟩ <;> rw [hreport] at hrun
    · cases hrun
    obtain ⟨hlasts, hleaves⟩ := h e rest s v t hI hreport
    cases v with
    | skip =>
      have hweight : weight t ≤ weight s := hlasts
      exact walk_of_ok h fuel rest t s' hleaves (by omega) hrun
    | recurse =>
      dsimp only at hrun
      cases hheld : host.edges e.pointee with
      | error f => rw [hheld] at hrun; cases hrun
      | ok held =>
        rw [hheld] at hrun
        have hweight : held.length + weight t ≤ weight s := hlasts held hheld
        exact walk_of_ok h fuel (held ++ rest) t s' (hleaves held hheld)
          (by rw [List.length_append]; omega) hrun

end Host

/-- An object that is `met` when it is looked into has fields to make up for the references that it
    adds. -/
theorem Heap.lasts_meet {h : Heap} {σ : Type} (met : σ → Word → Bool) {s s' : σ} {e : Edge} {n : Nat}
    {v : Visit} (hn : unmetFields (met s) h.objects.toList ≤ n)
    (hmet : ∀ a, met s a = true → met s' a = true)
    (hnew : v = .recurse → met s e.pointee = false ∧ met s' e.pointee = true) :
    h.toHost.Lasts (fun s => unmetFields (met s) h.objects.toList) n e v s' := by
  have hmono := Nat.le_trans (unmetFields_mono hmet h.objects.toList) hn
  cases v with
  | skip => exact hmono
  | recurse =>
    intro held hheld
    obtain ⟨hbefore, hnow⟩ := hnew rfl
    rcases ho : h.object? e.pointee with - | o
    · rcases edges_eq_ok hheld with ⟨-, rfl⟩ | ⟨o, ho', -⟩
      · simpa using hmono
      · exact nomatch ho.symm.trans ho'
    · have hlength := length_edges_le hheld ho
      have hmeet := unmetFields_meet hmet ho hbefore hnow
      dsimp only
      omega

/-- What the copy of the object at `w` takes. -/
def Heap.footprintAt (h : Heap) (w : Word) : Nat :=
  ((h.object? w).map fun o => o.kind.footprint o.size).getD 0

/-- A reference `e` tells what the copy of its target takes. -/
theorem Heap.Targets.footprintAt {h : Heap} {e : Edge} (ht : h.Targets e) :
    h.footprintAt e.pointee = e.kind.footprint e.size := by
  obtain ⟨o, ho, hkind, hsize⟩ := ht
  unfold Heap.footprintAt
  rw [ho, hkind, hsize]
  rfl

/-- Among the objects `ys` there is no less to be copied than among some `xs` of them. -/
theorem sum_map_le_of_subset {cost : Word → Nat} {xs ys : List Word} (hnodup : xs.Nodup)
    (hsub : xs ⊆ ys) :
    (xs.map cost).sum ≤ (ys.map cost).sum := by
  obtain ⟨zs, hperm, hsublist⟩ := List.subperm_of_subset hnodup hsub
  rw [← (hperm.map cost).sum_eq]
  exact (hsublist.map cost).sum_le_sum fun _ _ => Nat.zero_le _

namespace Session

variable {h : Heap} {s : Session} {e e' : Edge} {v v' : Survey}

/-- How many fields the objects have that the survey `v` has not seen yet. -/
def unseen (h : Heap) (v : Survey) : Nat :=
  Heap.unmetFields (fun w => v.seen.contains w) h.objects.toList

theorem run_surveyEdge (s : Session) (e : Edge) (v : Survey) :
    (s.surveyEdge e).run.run v =
      if v.seen.contains e.pointee = true then (.ok .skip, v)
      else if s.classify e = .copy then
        (.ok .recurse, { v with seen := v.seen.insert e.pointee }.count e)
      else (.ok .skip, { v with seen := v.seen.insert e.pointee }) := by
  change StateT.run (ExceptT.run (if v.seen.contains e.pointee = true then _ else if s.classify e = .copy
    then _ else _)) v = _
  by_cases hseen : v.seen.contains e.pointee = true
  · rw [if_pos hseen, if_pos hseen]
    rfl
  · rw [if_neg hseen, if_neg hseen]
    by_cases hcopy : s.classify e = .copy
    · rw [if_pos hcopy, if_pos hcopy]
      rfl
    · rw [if_neg hcopy, if_neg hcopy]
      rfl

/-- What the survey of `e` does to what was found in `v`, and whether the target is looked into. -/
inductive SurveyStep (s : Session) (e : Edge) (v : Survey) : Visit → Survey → Prop where
  | known (old : v.seen.contains e.pointee = true) : SurveyStep s e v .skip v
  | counted (new : v.seen.contains e.pointee = false) (fate : s.classify e = .copy) :
      SurveyStep s e v .recurse ({ v with seen := v.seen.insert e.pointee }.count e)
  | left (new : v.seen.contains e.pointee = false) (fate : s.classify e ≠ .copy) :
      SurveyStep s e v .skip { v with seen := v.seen.insert e.pointee }

theorem surveyStep_of_run {x : Visit} (hrun : (s.surveyEdge e).run.run v = (.ok x, v')) :
    SurveyStep s e v x v' := by
  rw [run_surveyEdge] at hrun
  split at hrun
  · rename_i hseen
    cases hrun
    exact .known hseen
  · rename_i hseen
    split at hrun
    · rename_i hcopy
      cases hrun
      exact .counted (Bool.eq_false_iff.2 hseen) hcopy
    · rename_i hcopy
      cases hrun
      exact .left (Bool.eq_false_iff.2 hseen) hcopy

/-- The survey of an object that will be copied, once it is seen. -/
theorem seen_count (v : Survey) (e : Edge) : (v.count e).seen = v.seen := by
  simp only [Survey.count]
  split
  · rfl
  · split <;> rfl

/-- The target `e.pointee` is seen from then on. -/
theorem SurveyStep.seen_iff {x : Visit} (hstep : SurveyStep s e v x v') (w : Word) :
    v'.seen.contains w = true ↔ v.seen.contains w = true ∨ e.pointee = w := by
  cases hstep with
  | known old => exact ⟨Or.inl, fun hw => hw.elim id fun heq => heq ▸ old⟩
  | counted => simp [seen_count, or_comm]
  | left => simp [or_comm]

/-- An object that is seen for the first time by `e` takes its fields off those that are left. -/
theorem lasts_seen {h : Heap} {e : Edge} {n : Nat} {v v' : Survey} (hn : unseen h v ≤ n)
    (hnew : v.seen.contains e.pointee = false) (hseen : v'.seen = v.seen.insert e.pointee) (x : Visit) :
    h.toHost.Lasts (unseen h) n e x v' :=
  Heap.lasts_meet (fun (v : Survey) w => v.seen.contains w) hn (fun w hw => by simp [hseen, hw])
    fun _ => ⟨hnew, by simp [hseen]⟩

/-- The object at `w` is one that is copied. -/
def Takes (h : Heap) (s : Session) (w : Word) : Prop :=
  ∃ o, h.object? w = some o ∧ s.classify (Heap.rootEdge w o) = .copy

/-- What happens to the object `o` is the same by any reference `e` to it. -/
theorem classify_rootEdge {o : HeapObject} (hkind : e.kind = o.kind) :
    s.classify (Heap.rootEdge e.pointee o) = s.classify e := by
  unfold classify isExcluded Heap.rootEdge
  rw [hkind]

theorem takes_iff (ht : h.Targets e) : s.Takes h e.pointee ↔ s.classify e = .copy := by
  obtain ⟨o, ho, hkind, -⟩ := ht
  refine ⟨fun ⟨o', ho', hfate⟩ => ?_, fun hfate => ⟨o, ho, (classify_rootEdge hkind).trans hfate⟩⟩
  obtain rfl := Option.some_inj.1 (ho.symm.trans ho')
  exact (classify_rootEdge hkind).symm.trans hfate

/-- The object at `w` was seen, or a reference of `pending` leads to it. -/
def Survey.Meets (v : Survey) (pending : List Edge) (w : Word) : Prop :=
  v.seen.contains w = true ∨ ∃ e ∈ pending, e.pointee = w

/-- The objects `ws` that were seen and are copied, once each, and the estimate covers them. -/
structure Survey.Counts (h : Heap) (s : Session) (v : Survey) (ws : List Word) : Prop where
  nodup : ws.Nodup
  mem_iff : ∀ w, w ∈ ws ↔ v.seen.contains w = true ∧ s.Takes h w
  covers : v.estimate.Covers (ws.map h.footprintAt).sum

/-- A survey is under way: what is held by the objects that `v` looked into, and `roots` so far, are
    seen or pending. -/
structure Surveying (h : Heap) (s : Session) (roots : List Word) (pending : List Edge) (v : Survey) :
    Prop where
  targets : ∀ e ∈ pending, h.Targets e
  counts : ∃ ws, v.Counts h s ws
  held : ∀ a i t, v.seen.contains a = true → s.Takes h a → h.Holds a i t → v.Meets pending t
  roots : ∀ w ∈ roots, (h.object? w).isSome = true → v.Meets pending w
  seeds : ∀ w, w ∈ v.strings.toList ∨ w ∈ v.descriptors.toList → v.seen.contains w = true

/-- What was seen or pending is so after a report of `e`. -/
theorem Survey.Meets.report {rest rest' : List Edge} {w : Word} (hm : v.Meets (e :: rest) w)
    (hseen : ∀ w, v.seen.contains w = true ∨ e.pointee = w → v'.seen.contains w = true)
    (hrest : rest ⊆ rest') : v'.Meets rest' w := by
  rcases hm with hold | ⟨x, hx, rfl⟩
  · exact Or.inl (hseen w (Or.inl hold))
  · rcases List.mem_cons.1 hx with rfl | hx
    · exact Or.inl (hseen _ (Or.inr rfl))
    · exact Or.inr ⟨x, hrest hx, rfl⟩

/-- The object of `e` counts with no less than its copy takes. -/
theorem Survey.covers_count (v : Survey) (e : Edge) {n : Nat} (hn : v.estimate.Covers n) :
    (v.count e).estimate.Covers (n + e.kind.footprint e.size) := by
  have hplain := hn.addObject e.size
  have hrecord := (hn.addObject wordBytes).addObject e.size
  unfold count ObjectKind.footprint
  split
  · exact hrecord.mono (by split <;> omega)
  · rename_i hkind
    have hnot : e.kind ≠ .typeDescriptor := by
      intro heq
      rw [heq] at hkind
      exact hkind rfl
    rw [if_neg hnot, Nat.zero_add]
    split <;> exact hplain

/-- Descriptors and strings, as `e` may refer to, are roots of the search later on. -/
theorem Survey.seeds_count (v : Survey) (e : Edge) (w : Word) :
    w ∈ (v.count e).strings.toList ∨ w ∈ (v.count e).descriptors.toList ↔
      (w ∈ v.strings.toList ∨ w ∈ v.descriptors.toList) ∨
        w = e.pointee ∧ (e.kind.isTypeDescriptor = true ∨ e.kind = .internedString) := by
  unfold count
  split
  · rename_i hkind
    simp only [Array.toList_push, List.mem_append, List.mem_singleton]
    tauto
  · rename_i hkind
    split
    · simp only [Array.toList_push, List.mem_append, List.mem_singleton]
      tauto
    · tauto

/-- The object of `e`, seen for the first time, is counted if it is copied. -/
theorem Survey.Counts.see {ws : List Word} (hc : v.Counts h s ws) (ht : h.Targets e)
    (hnew : v.seen.contains e.pointee = false)
    (hseen : ∀ w, v'.seen.contains w = true ↔ v.seen.contains w = true ∨ e.pointee = w)
    (hestimate : v'.estimate = v.estimate ∧ s.classify e ≠ .copy ∨
      v'.estimate = (v.count e).estimate ∧ s.classify e = .copy) : ∃ ws, v'.Counts h s ws := by
  rcases hestimate with ⟨hsame, hfate⟩ | ⟨hmore, hfate⟩
  · refine ⟨ws, hc.nodup, fun w => ?_, by rw [hsame]; exact hc.covers⟩
    rw [hc.mem_iff, hseen, or_and_right, or_iff_left]
    rintro ⟨rfl, htakes⟩
    exact hfate ((takes_iff ht).1 htakes)
  · refine ⟨e.pointee :: ws, List.nodup_cons.2 ⟨fun hmem => ?_, hc.nodup⟩, fun w => ?_, ?_⟩
    · rw [hc.mem_iff, hnew] at hmem
      exact nomatch hmem.1
    · rw [List.mem_cons, hc.mem_iff, hseen]
      refine ⟨?_, ?_⟩
      · rintro (rfl | ⟨hold, htakes⟩)
        · exact ⟨Or.inr rfl, (takes_iff ht).2 hfate⟩
        · exact ⟨Or.inl hold, htakes⟩
      · rintro ⟨hold | rfl, htakes⟩
        · exact Or.inr ⟨hold, htakes⟩
        · exact Or.inl rfl
    · rw [hmore, List.map_cons, List.sum_cons, ht.footprintAt, Nat.add_comm]
      exact v.covers_count e hc.covers

/-- A report of the next reference `e` keeps a survey under way. -/
theorem Surveying.report {roots : List Word} {rest : List Edge} {x : Visit}
    (hI : Surveying h s roots (e :: rest) v) (hstep : SurveyStep s e v x v') :
    h.toHost.Lasts (unseen h) (unseen h v) e x v' ∧
      h.toHost.Leaves (Surveying h s roots) e rest x v' := by
  obtain ⟨ht, htargets⟩ := List.forall_mem_cons.1 hI.targets
  obtain ⟨ws, hc⟩ := hI.counts
  have hseen := hstep.seen_iff
  cases hstep with
  | known old =>
    exact ⟨Nat.le_refl _, htargets, ⟨ws, hc⟩, fun a i t ha htakes hholds =>
      (hI.held a i t ha htakes hholds).report (fun w => (hseen w).2) (List.Subset.refl _),
      fun w hw hsome => (hI.roots w hw hsome).report (fun w => (hseen w).2) (List.Subset.refl _), hI.seeds⟩
  | counted new fate =>
    have hcounts : ∃ ws, ({ v with seen := v.seen.insert e.pointee }.count e).Counts h s ws :=
      hc.see ht new hseen (Or.inr ⟨by unfold Survey.count; split <;> (try split) <;> rfl, fate⟩)
    refine ⟨lasts_seen (Nat.le_refl _) new (seen_count _ e) _, fun held hheld => ⟨?_, hcounts, ?_, ?_, ?_⟩⟩
    · refine List.forall_mem_append.2 ⟨fun x hx => ?_, htargets⟩
      exact (Heap.holds_of_mem_edges hheld hx).elim fun _ hx => hx.2.2
    · intro a i t ha htakes hholds
      rcases (hseen a).1 ha with ha | rfl
      · exact (hI.held a i t ha htakes hholds).report (fun w => (hseen w).2)
          (List.subset_append_right ..)
      · obtain ⟨x, hx, hpointee, -⟩ := Heap.mem_edges_of_holds hheld hholds
        exact Or.inr ⟨x, List.mem_append_left _ hx, hpointee⟩
    · exact fun w hw hsome => (hI.roots w hw hsome).report (fun w => (hseen w).2)
        (List.subset_append_right ..)
    · intro w hw
      rcases (Survey.seeds_count _ e w).1 hw with hw | ⟨rfl, -⟩
      · exact (hseen w).2 (Or.inl (hI.seeds w hw))
      · exact (hseen _).2 (Or.inr rfl)
  | left new fate =>
    refine ⟨lasts_seen (Nat.le_refl _) new rfl _, htargets,
      hc.see ht new hseen (Or.inl ⟨rfl, fate⟩), fun a i t ha htakes hholds => ?_,
      fun w hw hsome => (hI.roots w hw hsome).report (fun w => (hseen w).2) (List.Subset.refl _),
      fun w hw => (hseen w).2 (Or.inl (hI.seeds w hw))⟩
    rcases (hseen a).1 ha with ha | rfl
    · exact (hI.held a i t ha htakes hholds).report (fun w => (hseen w).2) (List.Subset.refl _)
    · exact absurd ((takes_iff ht).1 htakes) fate

/-- What the survey of each reference keeps by `J` of what was found and what is pending. -/
def SurveyKeeps (h : Heap) (s : Session) (J : List Edge → Survey → Prop) : Prop :=
  ∀ e rest v x v', h.Targets e → J (e :: rest) v → SurveyStep s e v x v' → h.toHost.Leaves J e rest x v'

namespace Surveying

variable {roots : List Word} {root : Word} {J : List Edge → Survey → Prop}

/-- One more `root` is seen or pending. -/
theorem addRoot {pending : List Edge} (hI : Surveying h s roots [] v)
    (htargets : ∀ e ∈ pending, h.Targets e)
    (hroot : (h.object? root).isSome = true → v.Meets pending root) :
    Surveying h s (roots ++ [root]) pending v := by
  refine ⟨htargets, hI.counts, fun a i t ha htakes hholds => ?_, fun w hw hsome => ?_, hI.seeds⟩
  · exact Or.inl ((hI.held a i t ha htakes hholds).resolve_right nofun)
  · rcases List.mem_append.1 hw with hw | hw
    · exact Or.inl ((hI.roots w hw hsome).resolve_right nofun)
    · obtain rfl := List.mem_singleton.1 hw
      exact hroot hsome

/-- A visit from `root` leaves nothing pending, and what each survey keeps by `J`. -/
theorem visit (hkeeps : SurveyKeeps h s J)
    (hroot : ∀ o v, h.object? root = some o → J [] v → J [Heap.rootEdge root o] v)
    (hI : Surveying h s roots [] v) (hJ : J [] v)
    (hrun : (h.toHost.visit root s.surveyEdge).run.run v = (.ok (), v')) :
    Surveying h s (roots ++ [root]) [] v' ∧ J [] v' := by
  unfold Host.visit at hrun
  cases ho : h.object? root with
  | none =>
    have hnone : h.toHost.rootEdge? root = none := Option.map_eq_none_iff.2 ho
    rw [hnone] at hrun
    cases hrun
    exact ⟨hI.addRoot nofun fun hsome => (by rw [ho] at hsome; cases hsome), hJ⟩
  | some o =>
    have hedge : h.toHost.rootEdge? root = some (Heap.rootEdge root o) :=
      Option.map_eq_some_iff.2 ⟨o, ho, rfl⟩
    rw [hedge] at hrun
    have hreport : ∀ e rest t x t', Surveying h s (roots ++ [root]) (e :: rest) t ∧ J (e :: rest) t →
        (s.surveyEdge e).run.run t = (.ok x, t') → h.toHost.Lasts (unseen h) (unseen h t) e x t' ∧
          h.toHost.Leaves (fun pending v => Surveying h s (roots ++ [root]) pending v ∧ J pending v)
            e rest x t' := by
      intro e rest t x t' hIJ hrun
      have hstep := surveyStep_of_run hrun
      obtain ⟨hlasts, hleaves⟩ := hIJ.1.report hstep
      have hleft := hkeeps e rest t x t' (hIJ.1.targets e (List.mem_cons_self ..)) hIJ.2 hstep
      refine ⟨hlasts, ?_⟩
      cases x with
      | skip => exact ⟨hleaves, hleft⟩
      | recurse => exact fun held hheld => ⟨hleaves held hheld, hleft held hheld⟩
    refine Host.walk_of_ok (I := fun pending v => Surveying h s (roots ++ [root]) pending v ∧ J pending v)
      hreport _ _ v v' ⟨?_, hroot o v ho hJ⟩ ?_ hrun
    · exact hI.addRoot (fun e he => List.mem_singleton.1 he ▸ ⟨o, ho, rfl, rfl⟩)
        fun _ => Or.inr ⟨_, List.mem_singleton_self _, rfl⟩
    · have hweight : unseen h v ≤ h.toHost.edgeCount := h.unmetFields_le _
      rw [List.length_singleton]
      omega

theorem visits (hkeeps : SurveyKeeps h s J) : ∀ (more : List Word) {roots : List Word} {v : Survey},
    (∀ root ∈ more, ∀ o v, h.object? root = some o → J [] v → J [Heap.rootEdge root o] v) →
    Surveying h s roots [] v → J [] v →
    (more.forM fun root => h.toHost.visit root s.surveyEdge).run.run v = (.ok (), v') →
    Surveying h s (roots ++ more) [] v' ∧ J [] v'
  | [], roots, v, _, hI, hJ, hrun => by
    cases hrun
    rw [List.append_nil]
    exact ⟨hI, hJ⟩
  | root :: more, roots, v, hroots, hI, hJ, hrun => by
    change (h.toHost.visit root s.surveyEdge >>= fun _ =>
      more.forM fun root => h.toHost.visit root s.surveyEdge).run.run v = _ at hrun
    rw [Lockstep.run_bind] at hrun
    obtain ⟨hroot, hmore⟩ := List.forall_mem_cons.1 hroots
    rcases hvisit : (h.toHost.visit root s.surveyEdge).run.run v with ⟨f | ⟨⟩, t⟩ <;> rw [hvisit] at hrun
    · cases hrun
    · obtain ⟨hI', hJ'⟩ := visit hkeeps hroot hI hJ hvisit
      rw [← List.singleton_append, ← List.append_assoc]
      exact visits hkeeps more hmore hI' hJ' hrun

end Surveying

/-- A survey that begins with nothing found ends with all that is to be copied counted, and with
    what the survey of each reference keeps by `J`. -/
theorem surveying_keeping (hhost : s.host = h.toHost) (hstrings : s.internedStrings = [])
    (hdescriptors : s.typeDescriptors = []) {roots : List Word} {J : List Edge → Survey → Prop}
    (hkeeps : SurveyKeeps h s J)
    (hroots : ∀ root ∈ roots, ∀ o v, h.object? root = some o → J [] v → J [Heap.rootEdge root o] v)
    (hJ : J [] { seen := ∅, descriptors := #[], strings := #[], estimate := s.estimate })
    (hrun : s.survey roots = (.ok (), v)) : Surveying h s roots [] v ∧ J [] v := by
  unfold survey at hrun
  rw [hhost, hstrings, hdescriptors] at hrun
  have hnone : ∀ w, (∅ : Std.TreeSet Word).contains w = false := fun w => Std.TreeSet.contains_emptyc
  have hempty : Surveying h s [] []
      { seen := ∅, descriptors := #[], strings := #[], estimate := s.estimate } := by
    refine ⟨nofun, ⟨[], List.nodup_nil, fun w => ?_, Nat.zero_le _⟩, fun a i t ha => ?_, nofun,
      fun w hw => ?_⟩
    · rw [hnone]
      exact ⟨nofun, nofun⟩
    · rw [hnone] at ha
      cases ha
    · simp at hw
  exact Surveying.visits hkeeps roots hroots hempty hJ hrun

theorem surveying_of_ok (hhost : s.host = h.toHost) (hstrings : s.internedStrings = [])
    (hdescriptors : s.typeDescriptors = []) {roots : List Word} (hrun : s.survey roots = (.ok (), v)) :
    Surveying h s roots [] v := by
  refine (surveying_keeping (J := fun _ _ => True) hhost hstrings hdescriptors ?_ (fun _ _ _ _ _ _ => trivial)
    trivial hrun).1
  intro e rest v x v' _ _ _
  cases x with
  | skip => trivial
  | recurse => exact fun _ _ => trivial

/-- All that is to be copied in `s'` was counted by the survey `v`, and the estimate was not
    lowered. -/
structure Within (h : Heap) (s : Session) (v : Survey) (s' : Session) : Prop where
  fate : ∀ e, s'.classify e = s.classify e
  kept : s'.books.Kept
  covers : s'.estimate.Covers v.estimate.objectBytes
  counted : ∀ w x, s'.catalog.get? w = some x → x.isCopied = true →
    v.seen.contains w = true ∧ s.Takes h w

/-- The copies of all listed objects of `s'` take no more than is estimated. -/
theorem Within.covers_sources {roots : List Word} (hw : Within h s v s')
    (hsurvey : Surveying h s roots [] v) : s'.estimate.Covers
      (((s'.books.sources .mutable ++ s'.books.sources .readOnly).map h.footprintAt).sum) := by
  obtain ⟨ws, hc⟩ := hsurvey.counts
  have hmem : ∀ kind, ∀ w ∈ s'.books.sources kind, w ∈ ws := fun kind w hwmem => by
    obtain ⟨x, hx, hcopied, -⟩ := hw.kept.listed kind w hwmem
    exact (hc.mem_iff w).2 (hw.counted w x hx hcopied)
  have hnodup : (s'.books.sources .mutable ++ s'.books.sources .readOnly).Nodup := by
    refine List.nodup_append.2 ⟨hw.kept.nodup _, hw.kept.nodup _, ?_⟩
    rintro a ha b hb rfl
    obtain ⟨x, hx, -, -, hkind⟩ := hw.kept.listed _ a ha
    obtain ⟨y, hy, -, -, hkind'⟩ := hw.kept.listed _ a hb
    obtain rfl := Option.some_inj.1 (hx.symm.trans hy)
    exact nomatch hkind.symm.trans hkind'
  refine (hw.covers.trans hc.covers).mono (sum_map_le_of_subset hnodup fun w hwmem => ?_)
  exact (List.mem_append.1 hwmem).elim (hmem _ w) (hmem _ w)

/-- What the copy of the object that is entered at `w` takes. -/
def footprintAt (s : Session) (w : Word) : Nat := ((s.catalog.get? w).map (·.footprint)).getD 0

/-- What the copies of the objects `ws` take together. -/
def need (s : Session) (ws : List Word) : Nat := (ws.map s.footprintAt).sum

end Session

namespace SessionM

open Session

variable {h : Heap} {s s₁ s₂ : Session} {e : Edge} {v : Survey} {x : Visit}

theorem NoteStep.within (hstep : NoteStep s₁ e s₂) (hw : Within h s v s₁) : Within h s v s₂ := by
  refine ⟨fun e' => ?_, hstep.kept hw.kept, ?_, fun w x hx hcopied => ?_⟩
  · rw [hstep.frame]
    exact hw.fate e'
  · rw [hstep.frame]
    exact hw.covers
  · obtain ⟨y, flag, hy, rfl⟩ := hstep.entry hw.kept hx
    exact hw.counted w y hy hcopied

/-- The object `e.pointee` is entered for copying only where the survey counted it. -/
theorem EnterStep.within (hstep : EnterStep s₁ e x s₂) (hw : Within h s v s₁) (ht : h.Targets e)
    (hseen : v.seen.contains e.pointee = true) : Within h s v s₂ := by
  refine ⟨fun e' => ?_, hstep.kept hw.kept, ?_, fun w y hy hcopied => ?_⟩
  · rw [hstep.frame]
    exact hw.fate e'
  · rw [hstep.frame]
    exact hw.covers
  · rcases hstep.entry hy with hold | ⟨rfl, bits?, rfl⟩
    · exact hw.counted w y hold hcopied
    · exact ⟨hseen, (takes_iff ht).2 ((hw.fate e).symm.trans (of_decide_eq_true hcopied))⟩

/-- What is looked into, `e.pointee`, is copied. -/
theorem EnterStep.fate (hstep : EnterStep s₁ e .recurse s₂) : s₁.classify e = .copy := by
  cases hstep with
  | accepted _ _ fate => exact fate

/-- A visit from a `root` that the survey has seen enters what it has counted. -/
theorem keeps_within_visit {roots : List Word} (hsurvey : Surveying h s roots [] v) {root : Word}
    (hroot : (h.object? root).isSome = true → v.seen.contains root = true) :
    Keeps (Within h s v) (h.toHost.visit root registerEdge) := by
  refine Host.keeps_visit_among (A := fun e => h.Targets e ∧ v.seen.contains e.pointee = true)
    (fun e he => ?_) fun e he => ?_
  · obtain ⟨ht, hseen⟩ := he
    intro r hw
    refine (triple_registerEdge r.session e).use rfl ?_ ?_
    · rintro x r₂ ⟨s₁, hnote, henter⟩
      have hnoted := hnote.within hw
      refine ⟨henter.within hnoted ht hseen, fun hx held hheld y hy => ?_⟩
      subst hx
      obtain ⟨i, hholds, -, htarget⟩ := Heap.holds_of_mem_edges hheld hy
      have htakes : s.Takes h e.pointee := (takes_iff ht).2 ((hnoted.fate e).symm.trans henter.fate)
      exact ⟨htarget, (hsurvey.held _ i _ hseen htakes hholds).resolve_right nofun⟩
    · rintro f r₁ (⟨hsame, -⟩ | ⟨hnote, -⟩)
      · rw [hsame]
        exact hw
      · exact hnote.within hw
  · obtain ⟨o, ho, rfl⟩ := Option.map_eq_some_iff.1 he
    exact ⟨⟨o, ho, rfl, rfl⟩, hroot (by rw [ho]; rfl)⟩

/-- What begins the search in `s₁` is within the survey, and so are the objects that it begins
    with. -/
theorem within_of_surveyed {roots : List Word} (hhost : s.host = h.toHost) (hstrings : s.internedStrings = [])
    (hdescriptors : s.typeDescriptors = []) (hkept : s.books.Kept)
    (hnone : ∀ w, s.catalog.get? w = none) (hsurveyed : Surveyed roots s s₁) :
    Surveying h s roots [] (s.survey roots).2 ∧ Within h s (s.survey roots).2 s₁ ∧
      ∀ root ∈ s₁.internedStrings ++ s₁.typeDescriptors ++ roots,
        (h.object? root).isSome = true → (s.survey roots).2.seen.contains root = true := by
  obtain ⟨⟨descriptors, strings, estimate, rfl⟩, v, hrun, hstringsPerm, hdescriptorsPerm, hcovers⟩ :=
    hsurveyed
  have hsurvey := surveying_of_ok hhost hstrings hdescriptors hrun
  rw [hrun]
  refine ⟨hsurvey, ⟨fun _ => rfl, hkept, hcovers, fun w x hx => ?_⟩, fun root hroot hsome => ?_⟩
  · exact nomatch (hnone w).symm.trans hx
  · rcases List.mem_append.1 hroot with hseed | hroot
    · exact hsurvey.seeds root
        ((List.mem_append.1 hseed).imp hstringsPerm.mem_iff.1 hdescriptorsPerm.mem_iff.1)
    · exact (hsurvey.roots root hroot hsome).resolve_right nofun

/-- The first gather, of `roots`, leads on, and then the estimate covers the copies of all listed
    objects. -/
theorem triple_gather_covered (hs : h.Sound) {reservations : Reservations} {settings : Settings}
    (d? : Option Dependency) (roots : List Word) :
    Triple (· = fresh h.toHost reservations settings d?) (gather roots)
      (fun _ s => s.stage = .gathered ∧
        s.estimate.Covers (s.need (s.books.sources .mutable ++ s.books.sources .readOnly)))
      (fun _ _ => True) := by
  obtain ⟨hcataloged, hgrounded, -⟩ := cataloged_fresh h reservations settings d?
  have hbegin : ∀ s₁, Surveyed roots (fresh h.toHost reservations settings d?) s₁ → _ := fun _ =>
    within_of_surveyed rfl rfl rfl hcataloged.kept Catalog.get?_empty
  generalize fresh h.toHost reservations settings d? = s at hcataloged hgrounded hbegin ⊢
  -- the second walk enters nothing that the survey has not counted
  have hwithin : Triple (· = s) (gather roots) (fun _ s' =>
      Surveying h s roots [] (s.survey roots).2 ∧ Within h s (s.survey roots).2 s') fun _ _ => True := by
    refine (triple_gather_surveyed (E := fun _ _ => True)
      (P := fun s' => Surveying h s roots [] (s.survey roots).2 ∧ Within h s (s.survey roots).2 s') roots
      (fun _ => trivial) (fun _ _ _ _ => trivial) (fun _ s₁ hs₁ => ?_) fun _ s₁ hs₁ root hroot => ?_).conseq
      (fun _ hs => hs) ?_ fun _ _ _ => trivial
    · obtain ⟨hsurvey, hw, -⟩ := hbegin s₁ hs₁
      exact ⟨hsurvey, hw⟩
    · obtain ⟨hsurvey, -, hseen⟩ := hbegin s₁ hs₁
      obtain ⟨_, _, _, rfl⟩ := hs₁.1
      rw [show (Session.host _) = h.toHost from hcataloged.host]
      exact fun r hr => (keeps_within_visit hsurvey (hseen root hroot)).use hr.2 (fun _ _ hw => ⟨hsurvey, hw⟩)
        fun _ _ _ => trivial
    · rintro _ s' ⟨-, s₁, ⟨hsurvey, hw⟩, rfl⟩
      exact ⟨hsurvey, hw.fate, hw.kept, hw.covers, hw.counted⟩
  refine (hwithin.and (triple_gather_heap hs hcataloged hgrounded roots)).conseq (fun s' hs' => ⟨hs', hs'⟩) ?_
    fun _ _ _ => trivial
  rintro _ s' ⟨⟨hsurvey, hw⟩, -, s₁, hsearch, -, rfl⟩
  have hcovers := hw.covers_sources hsurvey
  refine ⟨rfl, ?_⟩
  unfold need
  rw [List.map_congr_left fun w hwmem => ?_]
  · exact hcovers
  · obtain ⟨x, hx⟩ : ∃ x, s₁.catalog.get? w = some x := by
      rcases List.mem_append.1 hwmem with hwmem | hwmem <;>
        exact (hw.kept.listed _ w hwmem).imp fun _ hx => hx.1
    obtain ⟨o, ho, hkind, hsize⟩ := hsearch.searched.cataloged.object w x hx
    unfold footprintAt Heap.footprintAt
    rw [show (Session.catalog _).get? w = some x from hx, ho]
    change x.kind.footprint x.size = o.kind.footprint o.size
    rw [hkind, hsize]

end SessionM

end SnapshotArchive
