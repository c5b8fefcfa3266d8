import Mathlib.Tactic.Common
import SnapshotArchive.Proofs.Filing
import SnapshotArchive.Proofs.HeapShape
import SnapshotArchive.Proofs.Soundness

/-!
Gathering from a reference heap. What is entered are objects of the heap with their own kinds and sizes,
and what is noted are fields that hold the address of an object. A search that ends has noted all such
fields of every object that it entered; one that fails may leave some of them out, and these are never
made up for, since an object is looked into only once.
-/

namespace SnapshotArchive

namespace Session

/-- The object at `t` has an entry, or will get one as a replaced object. -/
def Knows (s : Session) (t : Word) : Prop :=
  (s.catalog.get? t).isSome = true ∨ s.host.hasSubstitute t = true

/-- Each pointer that `s` notes leads to an object that is known. -/
def Grounded (h : Heap) (s : Session) : Prop :=
  ∀ w i, s.Notes w i → ∃ t, h.Holds w i t ∧ s.Knows t

/-- Every field of a copied object that holds the address of an object is noted. -/
def Settled (h : Heap) (s : Session) : Prop :=
  ∀ w e, s.catalog.get? w = some e → e.isCopied = true → ∀ i t, h.Holds w i t → s.Notes w i

/-- The books of `s` are those of the heap `h`. -/
structure Cataloged (h : Heap) (s : Session) : Prop where
  host : s.host = h.toHost
  kept : s.books.Kept
  filed : s.WellFiled
  object : ∀ w e, s.catalog.get? w = some e →
    ∃ o, h.object? w = some o ∧ e.kind = o.kind ∧ e.size = o.size
  fate : ∀ w e, s.catalog.get? w = some e → e.disposition = .aliasToExisting →
    ∃ d, s.dependency? = some d ∧ d.mapped.contains w = true
  total : ∀ kind, (s.copyList kind).totalBytes =
    wordBytes * ((s.books.sources kind).map fun w => (h.cellsAt w).length).sum
  former : ∀ w ∈ s.replaced, (h.object? w).isSome = true

/-- Whatever was entered in `s₀` is entered still in `s`, and nothing more was noted of it. -/
structure Extends (s₀ s : Session) : Prop where
  entered : ∀ w e₀, s₀.catalog.get? w = some e₀ →
    ∃ e, s.catalog.get? w = some e ∧ e.isCopied = e₀.isCopied
  notes : ∀ w e₀, s₀.catalog.get? w = some e₀ → ∀ i, s.Notes w i ↔ s₀.Notes w i

/-- The books of `s` agree with the heap and extend those of `s₀`. -/
structure Searched (h : Heap) (s₀ s : Session) : Prop where
  cataloged : Cataloged h s
  grounded : Grounded h s
  since : Extends s₀ s

/-- A field of an object that was entered since `s₀`, as the reference `e` that a traversal
    reports. -/
def Reports (h : Heap) (s₀ s : Session) (e : Edge) : Prop :=
  h.Targets e ∧ (e.origin? = none ∨ ∃ w i, e.origin? = some ⟨w, w.plus (wordBytes * i)⟩ ∧
    h.Holds w i e.pointee ∧ s₀.catalog.get? w = none ∧ (s.catalog.get? w).isSome = true)

/-- A search from `s₀` is under way: what is not noted of the objects it entered is still
    `pending`. -/
structure Searching (h : Heap) (s₀ : Session) (pending : List Edge) (s : Session) : Prop where
  searched : Searched h s₀ s
  reports : ∀ e ∈ pending, Reports h s₀ s e
  rest : ∀ w e, s₀.catalog.get? w = none → s.catalog.get? w = some e → e.isCopied = true →
    ∀ i t, h.Holds w i t → s.Notes w i ∨
      ∃ x ∈ pending, x.origin? = some ⟨w, w.plus (wordBytes * i)⟩ ∧ x.pointee = t

/-- How many fields the objects of `h` hold that have no entry in `s`. -/
def unmet (h : Heap) (s : Session) : Nat :=
  Heap.unmetFields (fun w => (s.catalog.get? w).isSome) h.objects.toList

/-- Books, first roots and the estimate may differ between `s₀` and `s`. -/
def Gathers (s₀ s : Session) : Prop :=
  ∃ b descriptors strings estimate, s = { s₀.withBooks b with
    typeDescriptors := descriptors, internedStrings := strings, estimate := estimate }

variable {h : Heap} {s s₀ s' : Session}

theorem Extends.refl (s : Session) : Extends s s :=
  ⟨fun _ e₀ he₀ => ⟨e₀, he₀, rfl⟩, fun _ _ _ _ => Iff.rfl⟩

/-- What was left out in `s₀` is not made up for. -/
theorem Extends.settled (hext : Extends s₀ s) (hsettled : Settled h s) : Settled h s₀ := by
  intro w e₀ he₀ hcopied i t hholds
  obtain ⟨e, he, hsame⟩ := hext.entered w e₀ he₀
  exact (hext.notes w e₀ he₀ i).1 (hsettled w e he (hsame.trans hcopied) i t hholds)

/-- A search that ended leaves nothing out itself. -/
theorem Searching.settled_iff (hsearch : Searching h s₀ [] s) : Settled h s ↔ Settled h s₀ := by
  refine ⟨hsearch.searched.since.settled, fun hsettled w e he hcopied i t hholds => ?_⟩
  cases he₀ : s₀.catalog.get? w with
  | none =>
    rcases hsearch.rest w e he₀ he hcopied i t hholds with hn | ⟨x, hx, -⟩
    · exact hn
    · cases hx
  | some e₀ =>
    obtain ⟨e', he', hsame⟩ := hsearch.searched.since.entered w e₀ he₀
    obtain rfl : e = e' := Option.some_inj.1 (he.symm.trans he')
    exact (hsearch.searched.since.notes w e₀ he₀ i).2
      (hsettled w e₀ he₀ (hsame.symm.trans hcopied) i t hholds)

theorem size_words {w : Word} {e : SourceEntry} {o : HeapObject} (ho : h.object? w = some o)
    (hsize : e.size = o.size) : 8 ∣ e.size ∧ e.size / wordBytes = o.length ∧
      e.size = wordBytes * (h.cellsAt w).length := by
  unfold Heap.cellsAt
  rw [hsize, ho]
  unfold HeapObject.size wordBytes
  simp only [List.length_range']
  omega

/-- Both lists have room for one more object `o`. -/
theorem Cataloged.room (hc : Cataloged h s) (hs : h.Sound) {w : Word} {o : HeapObject}
    (ho : h.object? w = some o) (hnew : s.catalog.get? w = none) (kind : RegionKind) :
    (s.copyList kind).totalBytes + o.size + 7 < addressLimit := by
  have hnodup : (s.books.sources kind ++ [w]).Nodup := by
    refine List.nodup_append.2 ⟨hc.kept.nodup kind, by simp, ?_⟩
    rintro a ha b hb rfl
    obtain rfl := List.mem_singleton.1 hb
    obtain ⟨e, he, -⟩ := hc.kept.listed kind a ha
    have hsome : s.catalog.get? a = some e := he
    rw [hnew] at hsome
    cases hsome
  have hsum := hs.sum_cells_le hnodup
  have hcells : (h.cellsAt w).length = o.length := by
    unfold Heap.cellsAt
    rw [ho]
    exact List.length_range'
  have hroom := hs.room
  have habove := hs.above
  rw [List.map_append, List.sum_append, List.map_singleton, List.sum_singleton, hcells] at hsum
  rw [hc.total]
  unfold HeapObject.size addressLimit wordBytes at *
  omega

/-- What a list counts together once the object `o` is put at its end. -/
theorem Cataloged.bytesWith_eq (hc : Cataloged h s) (hs : h.Sound) {w : Word} {o : HeapObject}
    (ho : h.object? w = some o) (hnew : s.catalog.get? w = none) (kind : RegionKind) :
    (s.copyList kind).bytesWith o.size = (s.copyList kind).totalBytes + o.size :=
  (hc.filed.filed kind).bytesWith_eq ⟨o.length, Nat.mul_comm ..⟩ (hc.room hs ho hnew kind)

end Session

namespace SessionM

open Session

variable {h : Heap} {s s₀ s' : Session} {e : Edge} {v : Visit}

theorem NoteStep.cataloged (hstep : NoteStep s e s') (hc : Cataloged h s) : Cataloged h s' := by
  have hframe := hstep.frame
  refine ⟨by rw [hframe]; exact hc.host, hstep.kept hc.kept, hstep.wellFiled hc.kept hc.filed,
    fun w x' hx' => ?_, fun w x' hx' hfate => ?_, fun kind => ?_,
    by rw [hstep.replaced]; exact hc.former⟩
  · obtain ⟨x, flag, hx, rfl⟩ := hstep.entry hc.kept hx'
    exact hc.object w x hx
  · obtain ⟨x, flag, hx, rfl⟩ := hstep.entry hc.kept hx'
    rw [hframe]
    exact hc.fate w x hx hfate
  · have htotal := hc.total kind
    cases hstep with
    | ignored => exact htotal
    | marked _ _ _ mark =>
      obtain ⟨_, _, -, -, -, rfl, rfl⟩ := markField_eq_ok mark
      rw [sources_books, revised_copyList] at *
      split
      · rename_i hk
        rw [hk]
        exact htotal
      · exact htotal

theorem EnterStep.cataloged (hstep : EnterStep s e v s') (hs : h.Sound) (hc : Cataloged h s)
    (htarget : h.Targets e) : Cataloged h s' := by
  obtain ⟨o, ho, hkind, hsize⟩ := htarget
  obtain ⟨hwords, -, hcells⟩ := size_words (e := s.foundEntry e) ho hsize
  have hframe := hstep.frame
  refine ⟨by rw [hframe]; exact hc.host, hstep.kept hc.kept,
    hstep.wellFiled hc.kept hc.filed hwords fun kind hnew => by
      rw [hsize]; exact hc.room hs ho hnew kind,
    fun w x hx => ?_, fun w x hx hfate => ?_, fun kind => ?_, fun w hw => ?_⟩
  · rcases hstep.entry hx with hold | ⟨rfl, bits?, rfl⟩
    · exact hc.object w x hold
    · exact ⟨o, ho, hkind, hsize⟩
  · rw [hframe]
    rcases hstep.entry hx with hold | ⟨rfl, bits?, rfl⟩
    · exact hc.fate w x hold hfate
    · change s.classify e = _ at hfate
      unfold classify at hfate
      split at hfate
      · rename_i hin
        obtain ⟨d, hd, hcontains⟩ := (Option.any_eq_true ..).1 hin
        exact ⟨d, hd, hcontains⟩
      · split at hfate <;> cases hfate
  · have htotal := hc.total kind
    cases hstep with
    | replaced =>
      unfold withReplaced
      split
      · exact htotal
      · cases kind <;> exact htotal
    | known => exact htotal
    | left =>
      rw [sources_books, withEntry_copyList] at *
      exact htotal
    | accepted _ new =>
      rw [sources_books, enlisted_copyList] at *
      split
      · have hbytes := hc.bytesWith_eq hs ho new kind
        rw [← hsize] at hbytes
        rw [sources_accept, List.map_append, List.sum_append, Nat.mul_add, ← htotal]
        change (s.copyList kind).bytesWith e.size = _ + wordBytes * ((h.cellsAt e.pointee).length + 0)
        rw [hbytes]
        exact congrArg _ hcells
      · exact htotal
  · rcases hstep.replaced_subset hw with hold | rfl
    · exact hc.former w hold
    · rw [ho]
      rfl

/-- A reported field lies in word `i` of `w` exactly where its origin says. -/
theorem liesIn_iff (hs : h.Sound) (hc : Cataloged h s) (hr : Reports h s₀ s e) {w : Word} {i : Nat} :
    LiesIn s e w i ↔ e.origin? = some ⟨w, w.plus (wordBytes * i)⟩ ∧ h.Holds w i e.pointee ∧
      ∃ x, s.catalog.get? w = some x ∧ x.isCopied = true := by
  constructor
  · rintro ⟨place, x, offset, horigin, rfl, hx, hcopied, hoffset, rfl⟩
    obtain ⟨-, hnone | ⟨w', i, horigin', hholds, -⟩⟩ := hr
    · rw [hnone] at horigin
      cases horigin
    · rw [horigin'] at horigin
      cases horigin
      obtain ⟨o, ho, -, hi, -⟩ := id hholds
      obtain ⟨hfield, -, -⟩ := CopyList.fieldOffset?_eq_some hoffset
      rw [hc.kept.keyed _ _ hx] at hfield
      change (w'.plus (wordBytes * i)).toNat = _ at hfield
      rw [hs.toNat_field ho hi] at hfield
      obtain rfl : wordBytes * i = offset := by
        change w'.toNat + _ = w'.toNat + _ at hfield
        omega
      rw [Nat.mul_div_cancel_left _ (by decide)]
      exact ⟨horigin', hholds, x, hx, hcopied⟩
  · rintro ⟨horigin, hholds, x, hx, hcopied⟩
    obtain ⟨o, ho, -, hi, -⟩ := id hholds
    have hsource := hc.kept.keyed _ _ hx
    obtain ⟨o', ho', -, hsize⟩ := hc.object w x hx
    obtain rfl : o = o' := Option.some_inj.1 (ho.symm.trans ho')
    have hfield := hs.toNat_field ho hi
    refine ⟨_, x, wordBytes * i, horigin, rfl, hx, hcopied, ?_, (Nat.mul_div_cancel_left _ (by decide)).symm⟩
    unfold CopyList.fieldOffset?
    dsimp only
    rw [hsource, hfield, Nat.add_sub_cancel_left, if_pos]
    refine ⟨Nat.le_add_right .., isAligned_word.2 (Nat.dvd_mul_right ..), ?_⟩
    rw [hsize]
    unfold HeapObject.size wordBytes
    omega

/-- Noting a field enters no object `w`. -/
theorem NoteStep.entered_iff (hstep : NoteStep s e s') (hkept : s.books.Kept) {w : Word} :
    (s'.catalog.get? w).isSome = true ↔ (s.catalog.get? w).isSome = true := by
  rcases hstep.get? hkept w with heq | ⟨x, hx, hnew⟩
  · rw [heq]
  · rw [hx, hnew]
    rfl

/-- An object `w` stays entered when a field is noted. -/
theorem NoteStep.entered (hstep : NoteStep s e s') (hkept : s.books.Kept) {w : Word}
    (h : (s.catalog.get? w).isSome = true) : (s'.catalog.get? w).isSome = true :=
  (hstep.entered_iff hkept).2 h

@[inherit_doc NoteStep.entered]
theorem EnterStep.entered (hstep : EnterStep s e v s') {w : Word} (h : (s.catalog.get? w).isSome = true) :
    (s'.catalog.get? w).isSome = true := by
  rcases hstep.get? w with heq | ⟨-, -, bits?, hnew⟩
  · rw [heq]; exact h
  · rw [hnew]; rfl

theorem NoteStep.knows (hstep : NoteStep s e s') (hkept : s.books.Kept) {t : Word} (h : s.Knows t) :
    s'.Knows t :=
  h.imp (hstep.entered hkept) fun hsub => by rw [hstep.frame]; exact hsub

theorem EnterStep.knows (hstep : EnterStep s e v s') {t : Word} (h : s.Knows t) : s'.Knows t :=
  h.imp hstep.entered fun hsub => by rw [hstep.frame]; exact hsub

/-- The target `e.pointee` is known once it was reported. -/
theorem EnterStep.knows_target (hstep : EnterStep s e v s') : s'.Knows e.pointee := by
  cases hstep with
  | replaced sub =>
    right
    unfold withReplaced
    split <;> exact sub
  | known _ found =>
    left
    rw [found]
    rfl
  | left _ new =>
    left
    rw [withEntry_catalog, Catalog.get?_put]
    exact (if_pos (rfl : (s.foundEntry e).source = e.pointee)) ▸ rfl
  | accepted _ new =>
    left
    rw [enlisted_get?]
    exact (if_pos (rfl : (s.foundEntry e).source = e.pointee)) ▸ rfl

theorem NoteStep.extends (hstep : NoteStep s e s') (hs : h.Sound) (hc : Cataloged h s)
    (hr : Reports h s₀ s e) (hold : Extends s₀ s) : Extends s₀ s' where
  entered w e₀ he₀ := by
    obtain ⟨x, hx, hcopied⟩ := hold.entered w e₀ he₀
    rcases hstep.get? hc.kept w with heq | ⟨y, hy, hnew⟩
    · exact ⟨x, heq.trans hx, hcopied⟩
    · obtain rfl : x = y := Option.some_inj.1 (hx.symm.trans hy)
      exact ⟨_, hnew, hcopied⟩
  notes w e₀ he₀ i := by
    rw [hstep.notes_iff hc.kept hc.filed, hold.notes w e₀ he₀]
    refine or_iff_left fun hlies => ?_
    obtain ⟨horigin, -⟩ := (liesIn_iff hs hc hr).1 hlies
    obtain ⟨-, hnone | ⟨w', i', horigin', -, hnew, -⟩⟩ := hr
    · rw [hnone] at horigin
      cases horigin
    · obtain ⟨rfl, -⟩ := FieldRef.mk.inj (Option.some.inj (horigin'.symm.trans horigin))
      rw [he₀] at hnew
      cases hnew

theorem EnterStep.extends (hstep : EnterStep s e v s') (hc : Cataloged h s) (hold : Extends s₀ s) :
    Extends s₀ s' where
  entered w e₀ he₀ := by
    obtain ⟨x, hx, hcopied⟩ := hold.entered w e₀ he₀
    rcases hstep.get? w with heq | ⟨rfl, hnone, -⟩
    · exact ⟨x, heq.trans hx, hcopied⟩
    · rw [hx] at hnone
      cases hnone
  notes w e₀ he₀ i := by rw [hstep.notes_iff hc.filed, hold.notes w e₀ he₀]

/-- What is noted of a reported field leads to its target `e.pointee`. -/
theorem NoteStep.grounded (hstep : NoteStep s e s') (hs : h.Sound) (hc : Cataloged h s)
    (hr : Reports h s₀ s e) (hg : Grounded h s) {s'' : Session} (hknows : s''.Knows e.pointee)
    (hmono : ∀ t, s'.Knows t → s''.Knows t) (hnotes : ∀ w i, s''.Notes w i ↔ s'.Notes w i) :
    Grounded h s'' := by
  intro w i hn
  rw [hnotes, hstep.notes_iff hc.kept hc.filed] at hn
  rcases hn with hn | hlies
  · obtain ⟨t, hholds, ht⟩ := hg w i hn
    exact ⟨t, hholds, hmono t (hstep.knows hc.kept ht)⟩
  · exact ⟨e.pointee, ((liesIn_iff hs hc hr).1 hlies).2.1, hknows⟩

/-- What is reported lies in objects that stay entered. -/
theorem reports_mono (h₁ : ∀ w, (s.catalog.get? w).isSome = true → (s'.catalog.get? w).isSome = true)
    (hr : Reports h s₀ s e) : Reports h s₀ s' e :=
  ⟨hr.1, hr.2.imp_right fun ⟨w, i, horigin, hholds, hnew, hsome⟩ =>
    ⟨w, i, horigin, hholds, hnew, h₁ w hsome⟩⟩

/-- A report leaves an object `w` that was entered by the search with its fields noted or
    pending. -/
theorem rest_report (hs : h.Sound) {rest : List Edge} (hI : Searching h s₀ (e :: rest) s)
    {s₁ : Session} (hnote : NoteStep s e s₁) (henter : EnterStep s₁ e v s') {w : Word} {x : SourceEntry}
    (hnew : s₀.catalog.get? w = none) (hx : s₁.catalog.get? w = some x) (hcopied : x.isCopied = true)
    {i : Nat} {t : Word} (hholds : h.Holds w i t) :
    s'.Notes w i ∨ ∃ y ∈ rest, y.origin? = some ⟨w, w.plus (wordBytes * i)⟩ ∧ y.pointee = t := by
  have hc := hI.searched.cataloged
  have hnotes : s.Notes w i ∨ LiesIn s e w i → s'.Notes w i := fun hn =>
    (henter.notes_iff (hnote.cataloged hc).filed w i).2 ((hnote.notes_iff hc.kept hc.filed w i).2 hn)
  obtain ⟨y, flag, hy, rfl⟩ := hnote.entry hc.kept hx
  rcases hI.rest w y hnew hy hcopied i t hholds with hn | ⟨z, hz, horigin, rfl⟩
  · exact .inl (hnotes (.inl hn))
  · rcases List.mem_cons.1 hz with rfl | hz
    · have hr := hI.reports _ (List.mem_cons_self ..)
      exact .inl (hnotes (.inr ((liesIn_iff hs hc hr).2 ⟨horigin, hholds, y, hy, hcopied⟩)))
    · exact .inr ⟨z, hz, horigin, rfl⟩

/-- An object `w` that is entered only now was not entered when the search began in `s₀`. -/
theorem unentered (h : Searched h s₀ s) {w : Word} (hw : s.catalog.get? w = none) :
    s₀.catalog.get? w = none := by
  by_contra hsome
  obtain ⟨x₀, hx₀⟩ := Option.ne_none_iff_exists'.1 hsome
  obtain ⟨x, hx, -⟩ := h.since.entered _ _ hx₀
  rw [hw] at hx
  cases hx

/-- A report of the next reference `e`: its field is noted, and what its target holds is pending if
    the target was not entered before. -/
theorem triple_report (hs : h.Sound) {rest : List Edge} (hI : Searching h s₀ (e :: rest) s) :
    Triple (· = s) (registerEdge e)
      (Host.Reported h.toHost (Searching h s₀) (unmet h) (fun _ => Searched h s₀) e rest (unmet h s))
      (fun _ => Searched h s₀) := by
  have hc := hI.searched.cataloged
  have hr := hI.reports e (List.mem_cons_self ..)
  refine (triple_registerEdge s e).conseq (fun _ h => h) ?_ ?_
  · rintro v s₂ ⟨s₁, hnote, henter⟩
    have hc₁ := hnote.cataloged hc
    have hc₂ := henter.cataloged hs hc₁ hr.1
    have hsearched : Searched h s₀ s₂ := by
      refine ⟨hc₂, hnote.grounded hs hc hr hI.searched.grounded henter.knows_target
        (fun t ht => henter.knows ht) fun w i => henter.notes_iff hc₁.filed w i, ?_⟩
      exact henter.extends hc₁ (hnote.extends hs hc hr hI.searched.since)
    have hsome : ∀ w, (s.catalog.get? w).isSome = true → (s₂.catalog.get? w).isSome = true :=
      fun w hw => henter.entered (hnote.entered hc.kept hw)
    have hpending : ∀ x ∈ rest, Reports h s₀ s₂ x := fun x hx =>
      reports_mono hsome (hI.reports x (List.mem_cons_of_mem _ hx))
    cases v with
    | skip =>
      exact ⟨⟨hsearched, hpending, fun w x hnew hx hcopied _ _ hholds =>
        rest_report hs hI hnote henter hnew (henter.skip hx hcopied) hcopied hholds⟩,
        Heap.unmetFields_mono hsome _⟩
    | recurse =>
      obtain ⟨o, ho, -⟩ := hr.1
      obtain ⟨hnone, hnow⟩ := henter.recurse
      have hbefore : s.catalog.get? e.pointee = none := by
        rw [← Option.not_isSome_iff_eq_none, ← hnote.entered_iff hc.kept, hnone]
        nofun
      have hunentered := unentered hI.searched hbefore
      unfold Host.Reported
      dsimp only [Heap.toHost]
      cases hheld : h.edges e.pointee with
      | error f => exact hsearched
      | ok held =>
        refine ⟨⟨hsearched, fun x hx => ?_, fun w x hnew hx hcopied i t hholds => ?_⟩, ?_⟩
        · rcases List.mem_append.1 hx with hx | hx
          · obtain ⟨i, hholds, horigin, htarget⟩ := Heap.holds_of_mem_edges hheld hx
            exact ⟨htarget, Or.inr ⟨_, i, horigin, hholds, hunentered, hnow⟩⟩
          · exact hpending x hx
        · rcases henter.entry hx with hold | ⟨rfl, -⟩
          · refine (rest_report hs hI hnote henter hnew hold hcopied hholds).imp_right ?_
            rintro ⟨y, hy, hrest⟩
            exact ⟨y, List.mem_append_right _ hy, hrest⟩
          · obtain ⟨y, hy, hpointee, horigin⟩ := Heap.mem_edges_of_holds hheld hholds
            exact Or.inr ⟨y, List.mem_append_left _ hy, horigin, hpointee⟩
        · -- the measure: the fields of an object just entered are no longer unmet
          have hmeet := Heap.unmetFields_meet hsome ho (by rw [hbefore]; rfl) hnow
          have hlength := Heap.length_edges_le hheld ho
          unfold unmet
          omega
  · rintro f s₁ (⟨hsame, -⟩ | ⟨hnote, x, hx, -, -⟩)
    · rw [hsame]
      exact hI.searched
    · have hc₁ := hnote.cataloged hc
      exact ⟨hc₁, hnote.grounded hs hc hr hI.searched.grounded (Or.inl (by rw [hx]; rfl))
        (fun _ ht => ht) fun _ _ => Iff.rfl, hnote.extends hs hc hr hI.searched.since⟩

/-- Only what the books say counts for a search. -/
theorem searched_seeds {s₁ : Session} (hseeds : SeedChange s s₁) (hsearched : Searched h s₀ s) :
    Searched h s₀ s₁ := by
  obtain ⟨descriptors, strings, estimate, rfl⟩ := hseeds
  have hc := hsearched.cataloged
  have hfiled : WellFiled { s with
      typeDescriptors := descriptors, internedStrings := strings, estimate := estimate } :=
    ⟨hc.filed.plain, fun kind => by cases kind; exact hc.filed.filed .mutable; exact hc.filed.filed .readOnly⟩
  exact ⟨⟨hc.host, hc.kept, hfiled, hc.object, hc.fate, fun kind => by
      cases kind; exact hc.total .mutable; exact hc.total .readOnly, hc.former⟩,
    hsearched.grounded, hsearched.since.entered, hsearched.since.notes⟩

/-- A search begins with nothing pending. -/
theorem searching_seeds (hc : Cataloged h s) (hg : Grounded h s) (hseeds : SeedChange s s') :
    Searching h s [] s' := by
  refine ⟨searched_seeds hseeds ⟨hc, hg, .refl s⟩, nofun, fun w e hnew he => ?_⟩
  obtain ⟨descriptors, strings, estimate, rfl⟩ := hseeds
  change s.catalog.get? w = some e at he
  rw [hnew] at he
  cases he

/-- The reference `e` to a `root` may be pending. -/
theorem searching_root (hsearch : Searching h s₀ [] s) {root : Word}
    (he : h.toHost.rootEdge? root = some e) : Searching h s₀ [e] s := by
  obtain ⟨o, ho, rfl⟩ := Option.map_eq_some_iff.1 he
  refine ⟨hsearch.searched, fun x hx => ?_, fun w x hnew hx hcopied i t hholds => ?_⟩
  · obtain rfl := List.mem_singleton.1 hx
    exact ⟨⟨o, ho, rfl, rfl⟩, Or.inl rfl⟩
  · rcases hsearch.rest w x hnew hx hcopied i t hholds with hn | ⟨y, hy, -⟩
    · exact Or.inl hn
    · cases hy

theorem keeps_gathers (root : Word) : Keeps (Gathers s₀) (s₀.host.visit root registerEdge) := by
  refine Host.keeps_visit (fun e r hr => ?_) root
  obtain ⟨b, descriptors, strings, estimate, hs⟩ := hr
  have hnoted : ∀ s₁, NoteStep r.session e s₁ → Gathers s₀ s₁ := fun s₁ hnote =>
    ⟨s₁.books, descriptors, strings, estimate, by rw [hnote.frame, hs]; rfl⟩
  refine (triple_registerEdge r.session e).use rfl ?_ ?_
  · rintro v r₂ ⟨s₁, hnote, henter⟩
    obtain ⟨b₁, d₁, i₁, e₁, hs₁⟩ := hnoted s₁ hnote
    exact ⟨r₂.session.books, d₁, i₁, e₁, by rw [henter.frame, hs₁]; rfl⟩
  · rintro f r₁ (⟨hsame, -⟩ | ⟨hnote, -⟩)
    · exact ⟨b, descriptors, strings, estimate, by rw [hsame, hs]⟩
    · exact hnoted _ hnote

/-- A gather of `roots` that succeeds leaves out no field of what it entered; one that fails still
    extends the books. -/
theorem triple_gather_heap (hs : h.Sound) (hc : Cataloged h s) (hg : Grounded h s) (roots : List Word) :
    Triple (· = s) (gather roots)
      (fun _ s' => s.stage = .new ∧ ∃ s₁, Searching h s [] s₁ ∧ Gathers s s₁ ∧
        s' = { s₁ with stage := .gathered })
      (fun _ s' => Searched h s s' ∧ Gathers s s') := by
  have hbegin : Searched h s s := ⟨hc, hg, .refl s⟩
  let P (s' : Session) : Prop := Searching h s [] s' ∧ Gathers s s'
  have hP : ∀ s', SeedChange s s' → P s' := by
    intro s' hseeds
    refine ⟨searching_seeds hc hg hseeds, ?_⟩
    obtain ⟨descriptors, strings, estimate, rfl⟩ := hseeds
    exact ⟨s.books, descriptors, strings, estimate, rfl⟩
  refine (triple_gather (P := P) (E := fun _ s' => Searched h s s' ∧ Gathers s s') roots
    (fun _ => ⟨hbegin, s.books, _, _, _, rfl⟩) (fun _ s' hseeds => ?_) fun _ s₁ root hseeds => ?_).conseq
    (fun _ h => h) ?_ fun _ _ h => h
  · exact ⟨hP s' hseeds, fun _ => ⟨(hP s' hseeds).1.searched, (hP s' hseeds).2⟩⟩
  · have hhost : s₁.host = h.toHost := (hP s₁ hseeds).1.searched.cataloged.host
    have hkeeps : Keeps (Gathers s) (s₁.host.visit root registerEdge) := by
      rw [hhost, ← hc.host]
      exact keeps_gathers root
    have hvisit : Triple (Searching h s []) (s₁.host.visit root registerEdge)
        (fun _ => Searching h s []) (fun _ => Searched h s) := by
      intro r hr
      rw [hhost]
      refine (Host.triple_visit (I := Searching h s) (s := r.session) (unmet h)
        (fun e rest s' hI => triple_report hs hI) (fun _ => hr) (fun e he => searching_root hr he)
        (h.unmetFields_le _)).use rfl (fun _ _ h => h) fun _ _ h => h
    exact hvisit.and hkeeps
  · rintro _ s' ⟨hnew, s₁, ⟨hsearch, hgathers⟩, rfl⟩
    exact ⟨hnew, s₁, hsearch, hgathers, rfl⟩

/-- A fresh session over a heap. -/
theorem cataloged_fresh (h : Heap) (reservations : Reservations) (settings : Settings)
    (d? : Option Dependency) : Cataloged h (fresh h.toHost reservations settings d?) ∧
      Grounded h (fresh h.toHost reservations settings d?) ∧
      Settled h (fresh h.toHost reservations settings d?) := by
  have hnone : ∀ w, (fresh h.toHost reservations settings d?).catalog.get? w = none :=
    Catalog.get?_empty
  refine ⟨⟨rfl, Books.kept_empty, ⟨?_, fun kind => ?_⟩, ?_, ?_, fun kind => ?_, nofun⟩, ?_, ?_⟩
  · intro w e he
    rw [hnone] at he
    cases he
  · cases kind <;> exact Filed.empty _
  · intro w e he
    rw [hnone] at he
    cases he
  · intro w e he
    rw [hnone] at he
    cases he
  · cases kind <;> rfl
  · rintro w i ⟨e, he, -⟩
    rw [hnone] at he
    cases he
  · intro w e he
    rw [hnone] at he
    cases he

end SessionM

end SnapshotArchive
