import SnapshotArchive.Proofs.Gathering

/-!
Replaced objects while a heap is searched. No entry is made for an object that was replaced. It goes on
the list of replaced objects instead, once, and those that noted fields lead to are all on the list.
-/

namespace SnapshotArchive

open SessionM

namespace Session

/-- The list of replaced objects of `s` agrees with the host, with the entries and with what was
    noted. -/
structure Sifted (h : Heap) (s : Session) : Prop where
  entries : ∀ w, (s.catalog.get? w).isSome = true → s.host.hasSubstitute w = false
  former : ∀ w ∈ s.replaced, s.host.hasSubstitute w = true
  nodup : s.replaced.toList.Nodup
  noted : ∀ w i t, s.Notes w i → h.Holds w i t → s.host.hasSubstitute t = true → t ∈ s.replaced
  /-- Nothing is copied yet. -/
  unclaimed : ∀ a, s.catalog.sourceOf? a = none

/-- Nothing was noted yet. -/
theorem sifted_fresh (h : Heap) (reservations : Reservations) (settings : Settings)
    (d? : Option Dependency) : Sifted h (fresh h.toHost reservations settings d?) where
  entries w hw := by simp [fresh] at hw
  former := nofun
  nodup := List.nodup_nil
  noted := by
    rintro w i t ⟨e, he, -⟩
    simp [fresh] at he
  unclaimed a := by simp [fresh, Catalog.sourceOf?, Catalog.empty]

theorem mem_withReplaced {s : Session} {v w : Word} :
    w ∈ (s.withReplaced v).replaced ↔ w ∈ s.replaced ∨ w = v := by
  unfold withReplaced
  split
  · rename_i hv
    refine ⟨Or.inl, Or.rec id ?_⟩
    rintro rfl
    exact Array.contains_iff_mem.1 hv
  · exact Array.mem_push

theorem nodup_withReplaced {s : Session} {v : Word} (h : s.replaced.toList.Nodup) :
    (s.withReplaced v).replaced.toList.Nodup := by
  unfold withReplaced
  split
  · exact h
  · rename_i hv
    rw [Array.toList_push, List.nodup_append]
    refine ⟨h, List.nodup_singleton v, fun a ha b hb => ?_⟩
    rintro rfl
    obtain rfl := List.mem_singleton.1 hb
    exact hv (Array.contains_iff_mem.2 (Array.mem_toList_iff.1 ha))

end Session

open Session

namespace SessionM

variable {h : Heap} {s s₀ s₁ s₂ : Session} {e : Edge} {v : Visit}

theorem NoteStep.host (hnote : NoteStep s e s₁) : s₁.host = s.host := by rw [hnote.frame]; rfl

theorem EnterStep.host (henter : EnterStep s e v s₁) : s₁.host = s.host := by rw [henter.frame]; rfl

theorem NoteStep.sourceOf? (hnote : NoteStep s e s₁) (a : Addr .buffer) :
    s₁.catalog.sourceOf? a = s.catalog.sourceOf? a := by
  cases hnote with
  | ignored => rfl
  | marked => rw [revised_catalog]; rfl

theorem EnterStep.sourceOf? (henter : EnterStep s e v s₁) (a : Addr .buffer) :
    s₁.catalog.sourceOf? a = s.catalog.sourceOf? a := by
  cases henter with
  | replaced => rw [withReplaced_catalog]
  | known => rfl
  | left => rfl
  | accepted => unfold enlisted; rw [accepted_catalog]; rfl

/-- Entering `e.pointee` puts it on the list of replaced objects, or gives it an entry. -/
theorem EnterStep.mem_replaced (henter : EnterStep s e v s₁) {w : Word} :
    w ∈ s₁.replaced ↔ w ∈ s.replaced ∨ w = e.pointee ∧ s.host.hasSubstitute e.pointee = true := by
  cases henter with
  | replaced sub => simp [mem_withReplaced, sub]
  | known plain => simp [plain]
  | left plain => simp [plain, withEntry]
  | accepted plain => simp [plain, enlisted, Session.accepted, withEntry]

theorem EnterStep.nodup_replaced (henter : EnterStep s e v s₁) (h : s.replaced.toList.Nodup) :
    s₁.replaced.toList.Nodup := by
  cases henter with
  | replaced => exact nodup_withReplaced h
  | known => exact h
  | left => exact h
  | accepted => simpa [enlisted, Session.accepted, withEntry] using h

theorem EnterStep.entered_plain (henter : EnterStep s e v s₁) {w : Word}
    (hw : (s₁.catalog.get? w).isSome = true) :
    (s.catalog.get? w).isSome = true ∨ s.host.hasSubstitute w = false := by
  rcases henter.get? w with heq | ⟨rfl, hnone, bits?, hnew⟩
  · exact .inl (heq ▸ hw)
  · cases henter with
    | replaced => rw [withReplaced_catalog, hnone] at hw; cases hw
    | known plain => exact .inr plain
    | left plain => exact .inr plain
    | accepted plain => exact .inr plain

/-- A report of `e` keeps the list of replaced objects in agreement. -/
theorem sifted_report (hs : h.Sound) (hc : Cataloged h s) (hr : Reports h s₀ s e)
    (hsifted : Sifted h s) (hnote : NoteStep s e s₁) (henter : EnterStep s₁ e v s₂) : Sifted h s₂ := by
  have hc₁ := hnote.cataloged hc
  have hhost : s₂.host = s.host := henter.host.trans hnote.host
  have hplain : ∀ w, (s₁.catalog.get? w).isSome = true → s.host.hasSubstitute w = false := fun w hw =>
    hsifted.entries w ((hnote.entered_iff hc.kept).1 hw)
  refine ⟨fun w hw => ?_, fun w hw => ?_, henter.nodup_replaced (hnote.replaced ▸ hsifted.nodup),
    fun w i t hn hholds hsub => ?_, fun a => ?_⟩
  · rw [hhost]
    refine (henter.entered_plain hw).elim (hplain w) fun hnew => ?_
    rwa [hnote.host] at hnew
  · rw [hhost]
    rcases henter.mem_replaced.1 hw with hold | ⟨rfl, hsub⟩
    · exact hsifted.former w (hnote.replaced ▸ hold)
    · rwa [hnote.host] at hsub
  · rw [hhost] at hsub
    rw [henter.notes_iff hc₁.filed, hnote.notes_iff hc.kept hc.filed] at hn
    rw [henter.mem_replaced, hnote.replaced, hnote.host]
    rcases hn with hold | hlies
    · exact .inl (hsifted.noted w i t hold hholds hsub)
    · obtain rfl := hholds.unique ((liesIn_iff hs hc hr).1 hlies).2.1
      exact .inr ⟨rfl, hsub⟩
  · rw [henter.sourceOf?, hnote.sourceOf?, hsifted.unclaimed]

/-- A search from `s₀` whose list of replaced objects agrees with what it noted so far. -/
def Sifting (h : Heap) (s₀ : Session) (pending : List Edge) (s : Session) : Prop :=
  Searching h s₀ pending s ∧ Sifted h s

theorem triple_report_sifting (hs : h.Sound) {rest : List Edge} (hI : Sifting h s₀ (e :: rest) s) :
    Triple (· = s) (registerEdge e)
      (Host.Reported h.toHost (Sifting h s₀) (unmet h) (fun _ _ => True) e rest (unmet h s))
      (fun _ _ => True) := by
  obtain ⟨hsearching, hsifted⟩ := hI
  have hc := hsearching.searched.cataloged
  have hr := hsearching.reports e (List.mem_cons_self ..)
  have hstep : Triple (· = s) (registerEdge e) (fun _ => Sifted h) (fun _ _ => True) :=
    (triple_registerEdge s e).conseq (fun _ h => h)
      (fun v s₂ ⟨s₁, hnote, henter⟩ => sifted_report hs hc hr hsifted hnote henter) fun _ _ _ => trivial
  refine ((triple_report hs hsearching).and hstep).conseq (fun _ h => ⟨h, h⟩) ?_ fun _ _ _ => trivial
  rintro v s₂ ⟨hreported, hsifted₂⟩
  refine hreported.and (J := fun _ => Sifted h) ?_ fun _ => trivial
  cases v with
  | skip => exact hsifted₂
  | recurse => exact fun _ _ => hsifted₂

/-- A gather of `roots` that succeeds leaves the list of replaced objects in agreement. -/
theorem triple_gather_sifted (hs : h.Sound) (hc : Cataloged h s) (hg : Grounded h s)
    (hsifted : Sifted h s) (roots : List Word) :
    Triple (· = s) (gather roots) (fun _ => Sifted h) (fun _ _ => True) := by
  have hseeded : ∀ s', SeedChange s s' → Sifting h s [] s' := by
    intro s' hseeds
    refine ⟨searching_seeds hc hg hseeds, ?_⟩
    obtain ⟨descriptors, strings, estimate, rfl⟩ := hseeds
    exact ⟨hsifted.entries, hsifted.former, hsifted.nodup, hsifted.noted, hsifted.unclaimed⟩
  refine (triple_gather (P := Sifting h s []) (E := fun _ _ => True) roots (fun _ => trivial)
    (fun _ s' hseeds => ⟨hseeded s' hseeds, fun _ => trivial⟩) fun _ s₁ root hseeds => ?_).conseq
    (fun _ h => h) ?_ fun _ _ h => h
  · have hhost : s₁.host = h.toHost := (hseeded s₁ hseeds).1.searched.cataloged.host
    intro r hr
    rw [hhost]
    refine (Host.triple_visit (I := Sifting h s) (s := r.session) (unmet h)
      (fun e rest s' hI => triple_report_sifting hs hI) (fun _ => hr) (fun e he => ⟨searching_root hr.1 he, hr.2⟩)
      (h.unmetFields_le _)).use rfl (fun _ _ h => h) fun _ _ h => h
  · rintro _ s' ⟨-, s₁, ⟨-, hsifted₁⟩, rfl⟩
    exact ⟨hsifted₁.entries, hsifted₁.former, hsifted₁.nodup, hsifted₁.noted, hsifted₁.unclaimed⟩

end SessionM

end SnapshotArchive
