import SnapshotArchive.Proofs.Gathering
import SnapshotArchive.Proofs.Pairing
import SnapshotArchive.Proofs.Surveying

/-!
Gathering in two heaps that correspond. Both surveys find the same objects in the same order, the sorting
keeps their order, and so the traversals meet the same objects in the same order: the books that they
leave correspond entry by entry and bit by bit.
-/

namespace SnapshotArchive

/-- Lists `xs` and `ys` are related if they are the two sides of one list `zs` of related pairs. -/
theorem exists_pairs {α β : Type} {A : α → β → Prop} {xs : List α} {ys : List β}
    (h : List.Forall₂ A xs ys) :
    ∃ zs : List (α × β), xs = zs.map (·.1) ∧ ys = zs.map (·.2) ∧ ∀ z ∈ zs, A z.1 z.2 := by
  induction h with
  | nil => exact ⟨[], rfl, rfl, nofun⟩
  | @cons a b _ _ hab _ ih =>
    obtain ⟨zs, rfl, rfl, hzs⟩ := ih
    refine ⟨(a, b) :: zs, rfl, rfl, fun z hz => ?_⟩
    rcases List.mem_cons.1 hz with rfl | hz
    · exact hab
    · exact hzs z hz

theorem forall₂_pairs {α β γ : Type} {A : α → β → Prop} {zs : List γ} {f : γ → α} {g : γ → β}
    (h : ∀ z ∈ zs, A (f z) (g z)) : List.Forall₂ A (zs.map f) (zs.map g) := by
  rw [List.forall₂_map_left_iff, List.forall₂_map_right_iff, List.forall₂_same]
  exact h

/-- Sorting keeps related lists related if `le` and `le'` compare their elements alike. -/
theorem forall₂_sortBy {α β : Type} {A : α → β → Prop} {le : α → α → Bool} {le' : β → β → Bool}
    (hle : ∀ a b x y, A a x → A b y → le' x y = le a b) {xs : List α} {ys : List β}
    (h : List.Forall₂ A xs ys) : List.Forall₂ A (sortBy le xs) (sortBy le' ys) := by
  obtain ⟨zs, rfl, rfl, hzs⟩ := exists_pairs h
  have hmem : ∀ z ∈ zs.mergeSort fun u v => le u.1 v.1, A z.1 z.2 := fun z hz =>
    hzs z ((List.mergeSort_perm zs _).mem_iff.1 hz)
  rw [sortBy_eq_mergeSort, sortBy_eq_mergeSort,
    ← List.map_mergeSort (r := fun u v => le u.1 v.1) (fun _ _ _ _ => rfl),
    ← List.map_mergeSort (r := fun u v => le u.1 v.1)
      fun u hu v hv => (hle _ _ _ _ (hzs u hu) (hzs v hv)).symm]
  exact forall₂_pairs hmem

namespace Session

variable {p : Pairing} {hot : Nat → Prop} {s s' : Session} {e e' : Edge}

namespace Mates

theorem isIncremental (h : s.Mates p hot s') : s'.isIncremental = s.isIncremental := by
  have hdep := h.dependency
  simp only [Session.isIncremental]
  generalize s.dependency? = d? at hdep ⊢
  generalize s'.dependency? = d?' at hdep ⊢
  rcases hdep with - | - <;> rfl

/-- Corresponding references `e` and `e'` are classified alike. -/
theorem classify (h : s.Mates p hot s') (hp : p.Fair) (he : e.Mates p.heap p.Mate e') :
    s'.classify e' = s.classify e := by
  have hexcluded : s'.isExcluded e' = s.isExcluded e := by
    have hhost : s'.host.isExcluded e'.pointee = s.host.isExcluded e.pointee := by
      rw [h.host, h.host']
      exact hp.corresponds.excluded _ _ he.pointee
    simp only [Session.isExcluded, h.isIncremental, hhost, he.kind]
  have hmapped : s'.dependency?.any (·.mapped.contains e'.pointee) =
      s.dependency?.any (·.mapped.contains e.pointee) := by
    have hdep := h.dependency
    generalize s.dependency? = d? at hdep ⊢
    generalize s'.dependency? = d?' at hdep ⊢
    rcases hdep with hd | -
    · exact hd.contains _ _ he.pointee
    · rfl
  simp only [Session.classify, hexcluded, hmapped, he.kind]

theorem hasSubstitute (h : s.Mates p hot s') (hp : p.Fair) {a a' : Word} (hmate : p.Mate a a') :
    s'.host.hasSubstitute a' = s.host.hasSubstitute a := by
  have hsub := hp.corresponds.substitutes a a' hmate
  rw [h.host, h.host']
  simp only [Heap.toHost, Std.TreeMap.contains_eq_isSome_getElem?]
  generalize p.heap.substitutes[a]? = u? at hsub ⊢
  generalize p.heap'.substitutes[a']? = u?' at hsub ⊢
  rcases hsub with - | - <;> rfl

theorem typeName (h : s.Mates p hot s') (hp : p.Fair) {a a' : Word} (hmate : p.Mate a a') :
    s'.host.typeName a' = s.host.typeName a := by
  obtain ⟨o, o', ho, ho', halike⟩ := hp.corresponds.object a a' hmate
  rw [h.host, h.host']
  simp only [Heap.toHost, Heap.nameAt?, ho, ho', Option.bind_some, halike.name]

/-- Type descriptors of `s` and `s'` come in the same order. -/
theorem sortedByName (h : s.Mates p hot s') (hp : p.Fair) :
    List.Forall₂ p.Mate (s.sortedByName s.typeDescriptors) (s'.sortedByName s'.typeDescriptors) := by
  obtain ⟨zs, hzs, hzs', hmate⟩ := exists_pairs h.descriptors
  simp only [Session.sortedByName, hzs, hzs', List.map_map]
  have hnamed : List.Forall₂ (fun x y => y.1 = x.1 ∧ p.Mate x.2 y.2)
      (zs.map ((fun d => (s.host.typeName d, d)) ∘ (·.1)))
      (zs.map ((fun d => (s'.host.typeName d, d)) ∘ (·.2))) :=
    forall₂_pairs fun z hz => ⟨h.typeName hp (hmate z hz), hmate z hz⟩
  have hsorted := forall₂_sortBy (A := fun x y : String × Word => y.1 = x.1 ∧ p.Mate x.2 y.2)
    (fun a b x y hx hy => show (!decide (y.1 < x.1)) = !decide (b.1 < a.1) by rw [hx.1, hy.1]) hnamed
  rw [List.forall₂_map_left_iff, List.forall₂_map_right_iff]
  exact hsorted.imp fun _ _ hxy => hxy.2

/-- Interned strings of `s` and `s'` come in the same order. -/
theorem sortedStrings (h : s.Mates p hot s') (hp : p.Fair) :
    List.Forall₂ p.StringMate (sortBy (fun a b => decide (a ≤ b)) s.internedStrings)
      (sortBy (fun a b => decide (a ≤ b)) s'.internedStrings) := by
  refine forall₂_sortBy (fun a b a' b' ha hb => ?_) h.strings
  obtain ⟨hmate, o, ho, hkind⟩ := ha
  obtain ⟨hmate', u, hu, hkind'⟩ := hb
  exact decide_eq_decide.2 (hp.corresponds.strings a a' b b' o u hmate hmate' ho hu hkind hkind')

end Mates

/-- There are two equal neighbours in `ys` exactly if there are in `xs`. -/
theorem repeated?_mates (hp : p.Fair) {xs ys : List Word} (h : List.Forall₂ p.StringMate xs ys) :
    (repeated? ys).isSome = (repeated? xs).isSome := by
  induction h with
  | nil => rfl
  | @cons a a' _ _ ha hrest ih =>
    rcases hrest with - | @⟨b, b', _, _, hb, hrest⟩
    · rfl
    · simp only [repeated?]
      have hsame := hp.corresponds.paired _ _ _ _ ha.1 hb.1
      by_cases hab : a = b
      · rw [if_pos hab, if_pos (hsame.1 hab)]
        rfl
      · rw [if_neg hab, if_neg (mt hsame.2 hab)]
        exact ih

/-- Surveys `v` and `v'` that found the same. -/
structure Survey.Mates (p : Pairing) (v v' : Survey) : Prop where
  seen : ∀ a a', p.Mate a a' → v'.seen.contains a' = v.seen.contains a
  descriptors : List.Forall₂ p.Mate v.descriptors.toList v'.descriptors.toList
  strings : List.Forall₂ p.StringMate v.strings.toList v'.strings.toList
  estimate : v'.estimate = v.estimate

namespace Survey.Mates

variable {v v' : Survey}

theorem see (hv : v.Mates p v') (hp : p.Fair) {a a' : Word} (hmate : p.Mate a a') :
    Survey.Mates p { v with seen := v.seen.insert a } { v' with seen := v'.seen.insert a' } :=
  { hv with
    seen := fun b b' hb => by
      have hsame := hp.corresponds.paired a a' b b' hmate hb
      rw [Std.TreeSet.contains_insert, Std.TreeSet.contains_insert, hv.seen b b' hb]
      congr 1
      by_cases hab : a = b
      · simp [hab, (hsame.1 hab)]
      · simp [hab, (mt hsame.2 hab)] }

theorem count (hv : v.Mates p v') (he : e.Mates p.heap p.Mate e') :
    (v.count e).Mates p (v'.count e') := by
  obtain ⟨o, ho, hkind, -⟩ := he.target
  simp only [Survey.count, he.kind, he.size]
  split
  · have hmore := List.rel_append hv.descriptors (.cons he.pointee .nil)
    exact ⟨hv.seen, by simpa using hmore, hv.strings, by simp only [hv.estimate]⟩
  · split
    · rename_i hstring
      have hmate : p.StringMate e.pointee e'.pointee := ⟨he.pointee, o, ho, hkind.symm.trans hstring⟩
      have hmore := List.rel_append hv.strings (.cons hmate .nil)
      exact ⟨hv.seen, hv.descriptors, by simpa using hmore, by simp only [hv.estimate]⟩
    · exact ⟨hv.seen, hv.descriptors, hv.strings, by simp only [hv.estimate]⟩

end Survey.Mates

theorem lockstep_surveyEdge (h : s.Mates p hot s') (hp : p.Fair) (sure : Prop)
    (he : e.Mates p.heap p.Mate e') (n n' : Nat) :
    Lockstep sure id id (fun v v' => v.Mates p v' ∧ unseen p.heap v ≤ n ∧ unseen p.heap' v' ≤ n')
      (s.surveyEdge e) (s'.surveyEdge e') fun x x' v v' => x' = x ∧ v.Mates p v' ∧
        p.heap.toHost.Lasts (unseen p.heap) n e x v ∧ p.heap'.toHost.Lasts (unseen p.heap') n' e' x v' := by
  rintro v v' ⟨hv, hn, hn'⟩
  change v.Mates p v' at hv
  rw [run_surveyEdge, run_surveyEdge, hv.seen _ _ he.pointee, h.classify hp he]
  by_cases hseen : v.seen.contains e.pointee = true
  · rw [if_pos hseen, if_pos hseen]
    exact ⟨rfl, hv, hn, hn'⟩
  rw [if_neg hseen, if_neg hseen]
  have hnew := Bool.eq_false_iff.2 hseen
  have hnew' := (hv.seen _ _ he.pointee).trans hnew
  have hsee := hv.see hp he.pointee
  by_cases hcopy : s.classify e = .copy
  · rw [if_pos hcopy, if_pos hcopy]
    exact ⟨rfl, hsee.count he, lasts_seen hn hnew (seen_count _ e) _,
      lasts_seen hn' hnew' (seen_count _ e') _⟩
  · rw [if_neg hcopy, if_neg hcopy]
    exact ⟨rfl, hsee, lasts_seen hn hnew rfl _, lasts_seen hn' hnew' rfl _⟩

/-- Roots `a` and `a'` that correspond are reported as references that correspond. -/
theorem rootEdge_mates (hp : p.Fair) {a a' : Word} (hroot : p.RootMate a a') :
    Option.Rel (Edge.Mates p.heap p.Mate) (p.heap.toHost.rootEdge? a) (p.heap'.toHost.rootEdge? a') := by
  rcases hroot with hmate | ⟨hnone, hnone'⟩
  · exact hp.corresponds.rootEdge hmate
  · simp only [Heap.toHost, hnone, hnone', Option.map_none]
    exact .none

/-- Both surveys, of `roots` and of `roots'`, find the same. -/
theorem lockstep_survey (h : s.Mates p hot s') (hp : p.Fair) (sure : Prop) {roots roots' : List Word}
    (hroots : List.Forall₂ p.RootMate roots roots') :
    Agree sure (fun _ _ => (s.survey roots).2.Mates p (s'.survey roots').2) (s.survey roots).1
      (s'.survey roots').1 := by
  refine Lockstep.forM (f := id) (g := id) (P := Survey.Mates p) (A := p.RootMate) (fun a a' hroot => ?_) hroots _ _
    ⟨fun _ _ _ => by simp, by simpa using h.descriptors, by simpa using h.strings, h.estimate⟩
  rw [h.host, h.host']
  exact Host.lockstep_visit (unseen p.heap) (unseen p.heap')
    (fun e e' he => hp.corresponds.edges hp.sound hp.sound' he.pointee sure)
    (fun e e' n n' he => lockstep_surveyEdge h hp sure he n n')
    (fun _ => p.heap.unmetFields_le _) (fun _ => p.heap'.unmetFields_le _) (rootEdge_mates hp hroot)

namespace Mates

theorem withCatalog (h : s.Mates p hot s') {c c' : Catalog} (hc : c.Mates p c') :
    Session.Mates p hot { s with catalog := c } { s' with catalog := c' } := { h with catalog := hc }

theorem enter (h : s.Mates p hot s') (t : Stage) :
    Session.Mates p hot { s with stage := t } { s' with stage := t } := { h with stage := rfl }

theorem copyList (h : s.Mates p hot s') (kind : RegionKind) :
    (s.copyList kind).Mates p (s'.copyList kind) := by
  rcases kind
  · exact h.mutable
  · exact h.readOnly

theorem changeList (h : s.Mates p hot s') {c c' : Catalog} (hc : c.Mates p c') {kind : RegionKind}
    {f f' : CopyList → CopyList} (hl : (f (s.copyList kind)).Mates p (f' (s'.copyList kind))) :
    Session.Mates p hot ({ s with catalog := c }.changeList kind f)
      ({ s' with catalog := c' }.changeList kind f') := by
  rcases kind
  · exact { h with catalog := hc, mutable := hl }
  · exact { h with catalog := hc, readOnly := hl }

/-- An object is noted as replaced on both sides or on neither, at `a` and at `a'`. -/
theorem contains_replaced (h : s.Mates p hot s') (hp : p.Fair) {a a' : Word} (hmate : p.Mate a a') :
    s'.replaced.contains a' = s.replaced.contains a := by
  rw [Bool.eq_iff_iff, Array.contains_iff_mem, Array.contains_iff_mem, ← Array.mem_toList_iff,
    ← Array.mem_toList_iff]
  have hrel := h.replaced
  generalize s.replaced.toList = xs at hrel ⊢
  generalize s'.replaced.toList = ys at hrel ⊢
  induction hrel with
  | nil => simp
  | cons hb _ ih =>
    rw [List.mem_cons, List.mem_cons]
    exact or_congr (hp.corresponds.paired _ _ _ _ hmate hb).symm ih

end Mates

end Session

theorem CopyList.agree_markField {p : Pairing} {l l' : CopyList} (hl : l.Mates p l') {f f' : FieldRef}
    (hf : f.Mates p.Mate f') {x x' : SourceEntry} (hx : x.Mates p f.enclosing f'.enclosing x')
    (sure : Prop) :
    Agree sure (fun q q' => q.1.Mates p q'.1 ∧ q.2.Mates p f.enclosing f'.enclosing q'.2)
      (l.markField x f.field) (l'.markField x' f'.field) := by
  have hoffset : fieldOffset? x' f'.field = fieldOffset? x f.field := by
    obtain ⟨-, n, hn, hn'⟩ := hf
    simp [fieldOffset?, hx.source, hx.source', hx.size, hn, hn']
  simp only [markField, hx.bits, hoffset, hl.ledger]
  rcases x.bits? with - | bits
  · trivial
  rcases fieldOffset? x f.field with - | offset
  · trivial
  dsimp only
  rcases l.ledger.set? (bits.start + offset / wordBytes) with _ | ledger
  · trivial
  · exact ⟨⟨hl.sources, rfl, hl.totalBytes⟩, hx.source, by rw [hx.same], hx.output⟩

namespace CopyList.Mates

variable {p : Pairing} {l l' : CopyList} {a a' : Word} {x x' : SourceEntry}

theorem bytesWith (hl : l.Mates p l') (size : Nat) : l'.bytesWith size = l.bytesWith size := by
  simp only [CopyList.bytesWith, hl.totalBytes]

theorem listed (hl : l.Mates p l') (hx : x.Mates p a a' x') : (l.listed x).Mates p a a' (l'.listed x') := by
  have hbits : l'.nextBits x'.size = l.nextBits x.size := by
    simp only [nextBits, hl.totalBytes, hl.bytesWith, hx.size]
  refine ⟨hx.source, ?_, hx.output⟩
  simp only [CopyList.listed, hbits]
  rw [hx.same]

theorem accept (hl : l.Mates p l') (hmate : p.Mate a a') (hx : x.Mates p a a' x') :
    (l.accept x).Mates p (l'.accept x') := by
  refine ⟨?_, ?_, ?_⟩
  · have hmore := List.rel_append hl.sources (.cons hmate .nil)
    simpa [CopyList.accept, hx.source, hx.source'] using hmore
  · simp only [CopyList.accept, hl.ledger, hl.bytesWith, hx.size]
  · simp only [CopyList.accept, hl.bytesWith, hx.size]

end CopyList.Mates

theorem Catalog.Mates.add {p : Pairing} {c c' : Catalog} (h : c.Mates p c') (hp : p.Fair) {a a' : Word}
    (hmate : p.Mate a a') {x x' : SourceEntry} (hx : x.Mates p a a' x') :
    (c.add x).1.Mates p (c'.add x').1 ∧ (c'.add x').2 = (c.add x).2 := by
  have hrel := h.entries a a' hmate
  simp only [Catalog.add, hx.source, hx.source']
  generalize c.get? a = y? at hrel ⊢
  generalize c'.get? a' = y?' at hrel ⊢
  rcases hrel with - | -
  · exact ⟨h, rfl⟩
  · exact ⟨h.put hp hmate hx, rfl⟩

theorem Catalog.Mates.getD {p : Pairing} {c c' : Catalog} (h : c.Mates p c') {a a' : Word}
    (hmate : p.Mate a a') {x x' : SourceEntry} (hx : x.Mates p a a' x') :
    ((c.get? a).getD x).Mates p a a' ((c'.get? a').getD x') := by
  have hrel := h.entries a a' hmate
  generalize c.get? a = y? at hrel ⊢
  generalize c'.get? a' = y?' at hrel ⊢
  rcases hrel with hy | -
  · exact hy
  · exact hx

namespace SessionM

open Session

variable {p : Pairing} {hot : Nat → Prop} {sure : Prop} {e e' : Edge}

theorem paired_enter (t : Stage) :
    Paired sure (Session.Mates p hot) (enter t) (enter t) fun _ _ => Session.Mates p hot :=
  Paired.update fun _ _ h => h.enter t

theorem paired_noteField (hp : p.Fair) (he : e.Mates p.heap p.Mate e') :
    Paired sure (Session.Mates p hot) (noteField e) (noteField e') fun _ _ => Session.Mates p hot := by
  have horigin := he.origin
  simp only [noteField]
  generalize e.origin? = f? at horigin ⊢
  generalize e'.origin? = f?' at horigin ⊢
  rcases horigin with @⟨f, f', hf⟩ | -
  · refine Paired.peek fun s s' hs => ?_
    have hx := hs.catalog.entries _ _ hf.1
    generalize s.catalog.get? f.enclosing = x? at hx ⊢
    generalize s'.catalog.get? f'.enclosing = x?' at hx ⊢
    rcases hx with @⟨x, x', hx⟩ | -
    · dsimp only
      rw [hx.isCopied, hx.readOnly]
      split
      · refine (Paired.ofFailure (CopyList.agree_markField (hs.copyList _) hf hx sure)).bind fun q q' =>
          Lockstep.assume fun hq => Paired.update ?_
        rintro t t' ⟨rfl, rfl, -⟩
        exact hs.changeList (hs.catalog.put hp hf.1 hq.2) hq.1
      · exact Lockstep.pure fun _ _ ⟨ht, ht', h⟩ => ht ▸ ht' ▸ h
    · exact Lockstep.pure fun _ _ ⟨ht, ht', h⟩ => ht ▸ ht' ▸ h
  · exact Lockstep.pure fun _ _ h => h

theorem paired_acceptEntry (hp : p.Fair) {a a' : Word} (hmate : p.Mate a a') {x x' : SourceEntry}
    (hx : x.Mates p a a' x') :
    Paired sure (Session.Mates p hot) (acceptEntry x) (acceptEntry x') fun _ _ => Session.Mates p hot := by
  refine Paired.update fun s s' h => ?_
  have hlisted := CopyList.Mates.listed (h.copyList (.ofReadOnly x.readOnly)) hx
  simp only [hx.readOnly]
  exact h.changeList (h.catalog.put hp hmate hlisted) (CopyList.Mates.accept (h.copyList _) hmate hlisted)

theorem paired_registerEdge (hp : p.Fair) (he : e.Mates p.heap p.Mate e') :
    Paired sure (Session.Mates p hot) (registerEdge e) (registerEdge e')
      fun v v' s s' => v' = v ∧ s.Mates p hot s' := by
  simp only [registerEdge]
  refine (paired_noteField hp he).bind fun _ _ => Paired.read fun s s' h => ?_
  have hskip : Paired sure (Session.Mates p hot) (pure Visit.skip) (pure Visit.skip)
      fun v v' s s' => v' = v ∧ s.Mates p hot s' := Lockstep.pure fun _ _ h => ⟨rfl, h⟩
  rw [h.hasSubstitute hp he.pointee, h.contains_replaced hp he.pointee]
  split
  · split
    · refine (Paired.tell _ _).bind fun _ _ => Lockstep.bind (Q := fun _ _ => Session.Mates p hot) ?_
        fun _ _ => hskip
      refine Paired.update fun t t' ht => { ht with replaced := ?_ }
      have hmore := List.rel_append ht.replaced (.cons he.pointee .nil)
      simpa using hmore
    · exact hskip
  · rw [h.classify hp he, he.kind, he.size, he.readOnly]
    have hfound := SourceEntry.Mates.found (p := p) e.pointee e'.pointee (s.classify e) e.kind e.size e.readOnly
    generalize SourceEntry.found e.pointee (s.classify e) e.kind e.size e.readOnly = x at hfound ⊢
    generalize SourceEntry.found e'.pointee (s.classify e) e.kind e.size e.readOnly = x' at hfound ⊢
    obtain ⟨hadded, hcreated⟩ := h.catalog.add hp he.pointee hfound
    rw [hcreated]
    generalize s.catalog.add x = added at hadded ⊢
    generalize s'.catalog.add x' = added' at hadded ⊢
    have hy := hadded.getD he.pointee hfound
    generalize (added.1.get? e.pointee).getD x = y at hy ⊢
    generalize (added'.1.get? e'.pointee).getD x' = y' at hy ⊢
    rw [hy.readOnly, hy.isCopied]
    refine Lockstep.maybe Iff.rfl (Paired.tell _ _) ?_
    refine Lockstep.bind (Q := fun _ _ => Session.Mates p hot)
      (Paired.update fun t t' ht => ht.withCatalog hadded) fun _ _ => ?_
    refine Lockstep.maybe Iff.rfl (Lockstep.throw _ _) ?_
    split
    · exact (paired_acceptEntry hp he.pointee hy).bind fun _ _ => Lockstep.pure fun _ _ h => ⟨rfl, h⟩
    · exact hskip

/-- Books are kept, and each object that is looked into takes its fields off the `unmet` ones. -/
theorem triple_registerEdge_lasts {h : Heap} (e : Edge) (n : Nat) :
    Triple (fun s => s.books.Kept ∧ unmet h s ≤ n) (registerEdge e)
      (fun v s => s.books.Kept ∧ h.toHost.Lasts (unmet h) n e v s) (fun _ _ => True) := by
  rintro r ⟨hkept, hn⟩
  refine (triple_registerEdge r.session e).use rfl ?_ fun _ _ _ => trivial
  rintro v r' ⟨s₁, hnote, henter⟩
  have hkept₁ := hnote.kept hkept
  have hsome : ∀ w, (r.session.catalog.get? w).isSome = true → (r'.session.catalog.get? w).isSome = true :=
    fun w hw => henter.entered (hnote.entered hkept hw)
  refine ⟨henter.kept hkept₁, Heap.lasts_meet (fun (s : Session) w => (s.catalog.get? w).isSome) hn hsome ?_⟩
  rintro rfl
  obtain ⟨hnone, hnow⟩ := henter.recurse
  refine ⟨?_, hnow⟩
  rw [Option.isSome_eq_false_iff, Option.isNone_iff_eq_none, ← Option.not_isSome_iff_eq_none,
    ← hnote.entered_iff hkept, hnone]
  nofun

/-- Sessions `s` and `s'` are searched side by side. -/
def Alongside (p : Pairing) (hot : Nat → Prop) (s s' : Session) : Prop :=
  s.Mates p hot s' ∧ s.books.Kept ∧ s'.books.Kept

theorem paired_visit (hp : p.Fair) {root root' : Word} (hroot : p.RootMate root root') :
    Paired sure (Alongside p hot) (p.heap.toHost.visit root registerEdge)
      (p.heap'.toHost.visit root' registerEdge) fun _ _ => Alongside p hot := by
  refine Host.lockstep_visit (unmet p.heap) (unmet p.heap')
    (fun e e' he => hp.corresponds.edges hp.sound hp.sound' he.pointee sure) (fun e e' n n' he => ?_)
    (fun _ => p.heap.unmetFields_le _) (fun _ => p.heap'.unmetFields_le _) (rootEdge_mates hp hroot)
  have hedge : Paired sure (Session.Mates p hot) _ _ _ := paired_registerEdge hp he
  refine (hedge.along (triple_registerEdge_lasts (h := p.heap) e n)
    (triple_registerEdge_lasts (h := p.heap') e' n')).conseq ?_ ?_
  · rintro s s' ⟨⟨hmates, hkept, hkept'⟩, hn, hn'⟩
    exact ⟨hmates, ⟨hkept, hn⟩, hkept', hn'⟩
  · rintro v v' s s' ⟨⟨rfl, hmates⟩, ⟨hkept, hlasts⟩, hkept', hlasts'⟩
    exact ⟨rfl, ⟨hmates, hkept, hkept'⟩, hlasts, hlasts'⟩

theorem paired_gatherSeeds (hp : p.Fair) {roots roots' : List Word}
    (hroots : List.Forall₂ p.RootMate roots roots') :
    Paired sure (Session.Mates p hot) (gatherSeeds roots) (gatherSeeds roots')
      fun _ _ => Session.Mates p hot := by
  simp only [gatherSeeds]
  refine (Paired.tell _ _).bind fun _ _ => Paired.peek fun s s' h => ?_
  have hsurvey := lockstep_survey h hp sure hroots
  rw [h.isIncremental]
  generalize s.survey roots = found at hsurvey ⊢
  generalize s'.survey roots' = found' at hsurvey ⊢
  refine Lockstep.bind (Q := fun _ _ t t' => Agree sure (fun _ _ => t.Mates p hot t') found.1 found'.1)
    (Paired.update ?_) fun _ _ => Lockstep.bind (Q := fun _ _ => Session.Mates p hot) Paired.ofAgree
    fun _ _ => Lockstep.maybe Iff.rfl ?_ ?_
  · rintro t t' ⟨rfl, rfl, -⟩
    rcases found with ⟨_ | _, v⟩ <;> rcases found' with ⟨_ | _, v'⟩
    · trivial
    · exact hsurvey
    · exact hsurvey
    · exact { h with descriptors := hsurvey.descriptors, strings := hsurvey.strings,
                     estimate := hsurvey.estimate }
  · exact Paired.update fun t t' ht => { ht with estimate := by simp only [ht.estimate, ht.placeholder] }
  refine (Paired.tell _ _).bind fun _ _ => Lockstep.bind (Q := fun _ _ => Session.Mates p hot)
    (Paired.update fun t t' ht => { ht with strings := ht.sortedStrings hp }) fun _ _ =>
    Paired.read fun t t' ht => ?_
  have hrepeated := repeated?_mates hp ht.strings
  generalize repeated? t.internedStrings = w? at hrepeated ⊢
  generalize repeated? t'.internedStrings = w?' at hrepeated ⊢
  rcases w? with - | w <;> rcases w?' with - | w'
  · exact (Paired.tell _ _).bind fun _ _ =>
      Paired.update fun u u' hu => { hu with descriptors := hu.sortedByName hp }
  · cases hrepeated
  · cases hrepeated
  · exact Lockstep.throw _ _

/-- The search for the first roots leaves the books alone. -/
theorem triple_gatherSeeds_kept (roots : List Word) :
    Triple (fun s => s.books.Kept) (gatherSeeds roots) (fun _ s => s.books.Kept) fun _ _ => True := by
  intro r hr
  refine (triple_gatherSeeds r.session roots).use rfl ?_ fun _ _ _ => trivial
  rintro _ r' ⟨⟨descriptors, strings, estimate, hr'⟩, -⟩
  rw [hr']
  exact hr

/-- Gathering from corresponding `roots` and `roots'` leaves books that correspond. -/
theorem paired_gather (hp : p.Fair) {roots roots' : List Word}
    (hroots : List.Forall₂ p.RootMate roots roots') :
    Paired sure (Alongside p hot) (gather roots) (gather roots') fun _ _ => Session.Mates p hot := by
  have hseeds : Paired sure (Alongside p hot) (gatherSeeds roots) (gatherSeeds roots')
      fun _ _ => Alongside p hot := by
    refine ((paired_gatherSeeds hp hroots).along (triple_gatherSeeds_kept roots)
      (triple_gatherSeeds_kept roots')).conseq (fun _ _ h => h) fun _ _ _ _ h => h
  simp only [gather]
  refine (Paired.requireStage _ _ fun _ _ h => h.1.stage).bind fun _ _ => hseeds.bind fun _ _ =>
    (Paired.tell _ _).bind fun _ _ => Paired.read fun s s' h => ?_
  rw [h.1.host, h.1.host']
  refine Lockstep.bind (Q := fun _ _ => Alongside p hot)
    (Lockstep.forM (A := p.RootMate) (fun root root' hroot => paired_visit hp hroot) ?_) fun _ _ =>
    Paired.read fun _ _ _ => (Paired.tell _ _).bind fun _ _ => ?_
  · refine List.rel_append (List.rel_append ?_ ?_) hroots
    · exact h.1.strings.imp fun _ _ hmate => .inl hmate.1
    · exact h.1.descriptors.imp fun _ _ hmate => .inl hmate
  · exact (paired_enter _).conseq (fun _ _ h => h.1) fun _ _ _ _ h => h

end SessionM

end SnapshotArchive
