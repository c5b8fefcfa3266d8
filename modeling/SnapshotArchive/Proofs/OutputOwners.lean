import Mathlib.Logic.Function.Basic
import Mathlib.Tactic.Common
import SnapshotArchive.Proofs.Aliases
import SnapshotArchive.Proofs.LedgerSets

/-!
Who an output address belongs to. The catalog tells where the copy of an object is, and whose copy is at
an output address; the two agree as long as no copy was refused a place because it was taken. A refused
call changes nothing else: not the entries, and not the lists.
-/

namespace SnapshotArchive

variable {κ : Type}

/-- The catalog and lists of its objects, one for each of `κ`. -/
structure Accounts (κ : Type) where
  catalog : Catalog
  lists : κ → CopyList

/-- What may be done with the accounts. -/
inductive AccountCall (κ : Type) where
  | register (source : Word) (disposition : Disposition) (kind : ObjectKind) (size : Nat) (readOnly : Bool)
  | accept (k : κ) (source : Word)
  | mark (k : κ) (source field : Word)
  | place (source : Word) (output : Addr .buffer)
  | addAlias (former substitute : Word)

/-- The object that a call wants to be at the output address `o`. -/
def AccountCall.claimant? (o : Addr .buffer) : AccountCall κ → Option Word
  | place source output => if output = o then some source else none
  | _ => none

namespace Catalog

variable {c c' : Catalog} {e : SourceEntry} {s source w : Word} {o output : Addr .buffer}

/-- The copy of the object `s` is at the output address `o`. -/
def Holds (c : Catalog) (s : Word) (o : Addr .buffer) : Prop :=
  ∃ e, c.get? s = some e ∧ e.isAlias = false ∧ e.output? = some o

theorem holds_put : (c.put e).Holds s o ↔
    if e.source = s then e.isAlias = false ∧ e.output? = some o else c.Holds s o := by
  unfold Holds
  rw [get?_put]
  split <;> simp

/-- Both directions agree about the output address `o`: it belongs to the object whose copy is
    there. -/
def Owned (c : Catalog) (o : Addr .buffer) : Prop := ∀ s, c.sourceOf? o = some s ↔ c.Holds s o

/-- The output address `o` belongs to an object whose copy is not there. -/
def Usurped (c : Catalog) (o : Addr .buffer) : Prop := ∃ s, c.sourceOf? o = some s ∧ ¬ c.Holds s o

theorem Usurped.not_owned (h : c.Usurped o) : ¬ c.Owned o := by
  obtain ⟨s, hs, hnot⟩ := h
  exact fun howned => hnot ((howned s).1 hs)

/-- Every entry of `c` stands at its own address, and stand-ins are settled. -/
structure Tidy (c : Catalog) : Prop where
  keyed : c.Keyed
  settled : ∀ w e, c.get? w = some e → e.isAlias = true → e.resolution?.isSome = true

namespace Tidy

theorem empty : Tidy .empty where
  keyed w e h := by
    rw [get?_empty] at h
    cases h
  settled w e h := by
    rw [get?_empty] at h
    cases h

theorem put (h : c.Tidy) (he : e.isAlias = true → e.resolution?.isSome = true) : (c.put e).Tidy where
  keyed := h.keyed.put e
  settled w x hx := by
    rw [get?_put] at hx
    split at hx
    · cases hx
      exact he
    · exact h.settled w x hx

/-- An object `w` that is still to be copied does not stand in for another. -/
theorem isAlias_eq_false (h : c.Tidy) (he : c.get? w = some e) (hcopied : e.isCopied = true)
    (hout : e.output? = none) : e.isAlias = false := by
  by_contra halias
  have hsettled := h.settled w e he (Bool.not_eq_false _ ▸ halias)
  rw [SourceEntry.resolution?_eq_none hcopied hout] at hsettled
  cases hsettled

end Tidy

/-- What happens to the places of copies and to the owners of output addresses of `c` when a call
    replies `r`. -/
inductive Turn (c : Catalog) (r : Except Failure Unit) (c' : Catalog) : Prop where
  | kept (holds : ∀ s o, c'.Holds s o ↔ c.Holds s o) (owners : ∀ o, c'.sourceOf? o = c.sourceOf? o)
      (reply : ∀ a, r ≠ .error (Violation.duplicateOutput a))
  | placed (source : Word) (output : Addr .buffer) (free : c.sourceOf? output = none)
      (holds : ∀ s o, c'.Holds s o ↔ c.Holds s o ∨ s = source ∧ o = output)
      (owners : ∀ o, c'.sourceOf? o = if output = o then some source else c.sourceOf? o)
      (reply : r = .ok ())
  | contested (source : Word) (output : Addr .buffer) (pending : ∀ o, ¬ c.Holds source o)
      (holds : ∀ s o, c'.Holds s o ↔ c.Holds s o)
      (owners : ∀ o, c'.sourceOf? o = if output = o then some source else c.sourceOf? o)
      (reply : r = .error (Violation.duplicateOutput output.word))

namespace Turn

variable {r : Except Failure Unit}

theorem refl (hr : ∀ a, r ≠ .error (Violation.duplicateOutput a)) : Turn c r c :=
  .kept (fun _ _ => Iff.rfl) (fun _ => rfl) hr

/-- A call that is not refused the address `o` leaves its owner in accord with the copies. -/
theorem owned (t : Turn c r c') (h : c.Owned o) (hr : r ≠ .error (Violation.duplicateOutput o.word)) :
    c'.Owned o := by
  intro s
  cases t with
  | kept holds owners _ => rw [owners, holds, h s]
  | placed source output free holds owners _ =>
    rw [owners, holds]
    by_cases ho : output = o
    · -- nobody's copy was there before
      have hnone : ¬ c.Holds s output := by
        rw [ho, ← h s, ← ho, free]
        nofun
      subst ho
      simp [hnone, eq_comm]
    · simp [ho, Ne.symm ho, h s]
  | contested source output _ holds owners reply =>
    rw [owners, holds, if_neg, h s]
    rintro rfl
    exact hr reply

/-- A copy that is refused the address `o` owns it all the same. -/
theorem usurped_of_refused (t : Turn c r c') (hr : r = .error (Violation.duplicateOutput o.word)) :
    c'.Usurped o := by
  cases t with
  | kept _ _ reply => exact absurd hr (reply _)
  | placed _ _ _ _ _ reply =>
    rw [reply] at hr
    cases hr
  | contested source output pending holds owners reply =>
    have ho : output = o := by
      rw [reply] at hr
      cases output
      cases o
      cases hr
      rfl
    exact ⟨source, by rw [owners, if_pos ho], fun h => pending o ((holds ..).1 h)⟩

/-- An output address `o` with a wrong owner never gets a right one. -/
theorem usurped (t : Turn c r c') (h : c.Usurped o) : c'.Usurped o := by
  obtain ⟨s, hs, hnot⟩ := h
  cases t with
  | kept holds owners _ => exact ⟨s, by rw [owners, hs], by rwa [holds]⟩
  | placed source output free holds owners _ =>
    have ho : output ≠ o := by
      rintro rfl
      rw [free] at hs
      cases hs
    refine ⟨s, by rw [owners, if_neg ho, hs], ?_⟩
    rw [holds]
    rintro (hholds | ⟨-, rfl⟩)
    · exact hnot hholds
    · exact ho rfl
  | contested source output pending holds owners reply =>
    by_cases ho : output = o
    · exact ⟨source, by rw [owners, if_pos ho], fun h => pending o ((holds ..).1 h)⟩
    · exact ⟨s, by rw [owners, if_neg ho, hs], by rwa [holds]⟩

end Turn

theorem holds_iff (he : c.get? s = some e) : c.Holds s o ↔ e.isAlias = false ∧ e.output? = some o := by
  simp [Holds, he]

/-- An entry `e` for an object that had none, and that has no copy of its own yet, is in nobody's
    place. -/
theorem turn_put_new (hnew : c.get? e.source = none) (hout : e.isAlias = true ∨ e.output? = none) :
    Turn c (.ok ()) (c.put e) := by
  refine .kept (fun s o => ?_) (fun _ => rfl) nofun
  rw [holds_put]
  split
  · rename_i hs
    subst hs
    rcases hout with hout | hout <;> simp [Holds, hnew, hout]
  · rfl

/-- An entry may change to `e'` in all that does not tell where its copy is. -/
theorem Tidy.revise (h : c.Tidy) (he : c.get? w = some e) (e' : SourceEntry) (hsource : e'.source = e.source)
    (halias : e'.isAlias = e.isAlias) (hout : e'.output? = e.output?)
    (hfate : e'.disposition = e.disposition) : Turn c (.ok ()) (c.put e') ∧ (c.put e').Tidy := by
  obtain rfl := h.keyed w e he
  refine ⟨.kept (fun s o => ?_) (fun _ => rfl) nofun, h.put fun halias' => ?_⟩
  · rw [holds_put, hsource, halias, hout]
    split
    · rename_i hs
      rw [← hs, holds_iff he]
    · rfl
  · have hsettled := h.settled _ e he (halias ▸ halias')
    unfold SourceEntry.resolution? at hsettled ⊢
    rw [hfate, hout]
    cases hd : e.disposition <;> simp_all

/-- A copy of `source` that is given its place at `output`. -/
theorem Tidy.placed (h : c.Tidy) (he : c.get? source = some e) (hcopied : e.isCopied = true)
    (hout : e.output? = none) (hfree : c.sourceOf? output = none) :
    Turn c (.ok ()) ((c.withOwner output source).put { e with output? := some output }) ∧
      ((c.withOwner output source).put { e with output? := some output }).Tidy := by
  obtain rfl := h.keyed source e he
  have halias := h.isAlias_eq_false he hcopied hout
  refine ⟨.placed e.source output hfree (fun s o => ?_) (sourceOf?_withOwner c output _) rfl, ?_⟩
  · rw [holds_put]
    split
    · rename_i hs
      subst hs
      simp [holds_iff he, halias, hout, eq_comm]
    · rename_i hs
      rw [or_iff_left fun hmoved => hs hmoved.1.symm]
      rfl
  · have htidy : (c.withOwner output e.source).Tidy := ⟨h.keyed, h.settled⟩
    refine htidy.put fun halias' => ?_
    rw [show e.isAlias = true from halias'] at halias
    cases halias

/-- A copy of `source` that is refused its place at `output`. -/
theorem Tidy.contested (h : c.Tidy) (he : c.get? source = some e) (hout : e.output? = none) :
    Turn c (.error (Violation.duplicateOutput output.word)) (c.withOwner output source) ∧
      (c.withOwner output source).Tidy := by
  refine ⟨.contested source output (fun o => ?_) (fun _ _ => Iff.rfl) (sourceOf?_withOwner c output source) rfl,
    h.keyed, h.settled⟩
  rw [holds_iff he, hout]
  rintro ⟨-, ⟨⟩⟩

end Catalog

namespace Accounts

open Catalog (Turn)

/-- Nothing registered yet. -/
def empty : Accounts κ := ⟨.empty, fun _ => .empty⟩

variable [DecidableEq κ]

/-- How a call on `a` ends, and the accounts after it. What is asked of the lists about an object
    that is not registered is nothing. -/
def call (a : Accounts κ) : AccountCall κ → Except Failure Unit × Accounts κ
  | .register source disposition kind size readOnly =>
    (.ok (), { a with catalog := (a.catalog.add (.found source disposition kind size readOnly)).1 })
  | .accept k source =>
    match a.catalog.get? source with
    | none => (.ok (), a)
    | some e =>
      (.ok (), ⟨a.catalog.put ((a.lists k).listed e), Function.update a.lists k ((a.lists k).accept e)⟩)
  | .mark k source field =>
    match a.catalog.get? source with
    | none => (.ok (), a)
    | some e =>
      match (a.lists k).markField e field with
      | .ok (l, e) => (.ok (), ⟨a.catalog.put e, Function.update a.lists k l⟩)
      | .error f => (.error f, a)
  | .place source output =>
    let (r, c) := a.catalog.place source output
    (r.mapError fun v => .error (.invariant v), { a with catalog := c })
  | .addAlias former substitute =>
    match a.catalog.addAlias former substitute with
    | .ok c => (.ok (), { a with catalog := c })
    | .error v => (.error v, a)

variable {a : Accounts κ}

/-- Noting a `field` is refused for other reasons than that an output address is taken. -/
theorem markField_ne_contested {l : CopyList} {e : SourceEntry} {field : Word} {f : Failure}
    (h : l.markField e field = .error f) (w : Word) : f ≠ Violation.duplicateOutput w := by
  unfold CopyList.markField at h
  split at h
  · split at h <;> cases h
    nofun
  · cases h
    nofun

theorem addAlias_ne_contested {c : Catalog} {former substitute : Word} {v : Violation}
    (h : c.addAlias former substitute = .error v) (w : Word) : v ≠ .duplicateOutput w := by
  rcases c.addAlias_cases former substitute with
    ⟨-, hadd⟩ | ⟨e, outcome, -, -, ⟨-, hadd⟩ | ⟨-, hadd⟩⟩ <;> cases hadd.symm.trans h <;> nofun

/-- A call `k` changes places and owners of output addresses in one of three ways. -/
theorem turn (h : a.catalog.Tidy) (k : AccountCall κ) :
    Turn a.catalog (a.call k).1 (a.call k).2.catalog ∧ (a.call k).2.catalog.Tidy := by
  cases k with
  | register source disposition kind size readOnly =>
    dsimp only [call]
    rcases hget : a.catalog.get? source with - | e
    · rw [SessionM.add_new hget]
      exact ⟨Catalog.turn_put_new hget (.inr rfl), h.put nofun⟩
    · rw [SessionM.add_known hget]
      exact ⟨.refl nofun, h⟩
  | accept l source =>
    dsimp only [call]
    rcases hget : a.catalog.get? source with - | e
    · exact ⟨.refl nofun, h⟩
    · exact h.revise hget _ rfl rfl rfl rfl
  | mark l source field =>
    dsimp only [call]
    rcases hget : a.catalog.get? source with - | e
    · exact ⟨.refl nofun, h⟩
    dsimp only
    rcases hmark : (a.lists l).markField e field with f | ⟨list, e'⟩
    · exact ⟨.refl fun w hw => markField_ne_contested hmark w (Except.error.inj hw), h⟩
    · obtain ⟨-, -, -, -, -, -, rfl⟩ := SessionM.markField_eq_ok hmark
      exact h.revise hget _ rfl rfl rfl rfl
  | place source output =>
    dsimp only [call]
    rcases a.catalog.place_cases source output with
      ⟨v, hplace, hv⟩ | ⟨e, he, hcopied, hout, ⟨owner, -, hplace⟩ | ⟨hfree, hplace⟩⟩ <;> rw [hplace]
    · refine ⟨.refl fun w hw => ?_, h⟩
      rcases hv with rfl | ⟨e, rfl⟩ <;> cases hw
    · exact h.contested he hout
    · exact h.placed he hcopied hout hfree
  | addAlias former substitute =>
    dsimp only [call]
    rcases hadd : a.catalog.addAlias former substitute with v | c
    · exact ⟨.refl fun w hw => addAlias_ne_contested hadd w (by simpa using hw), h⟩
    · obtain ⟨e, he, hsettled, hnew, rfl⟩ := Catalog.addAlias_eq_ok_iff.1 hadd
      exact ⟨Catalog.turn_put_new hnew (.inl rfl),
        h.put fun _ => SourceEntry.isSome_resolution?_standIn hsettled former⟩

/-- Along `calls`, an output address `o` keeps its right owner until a copy is refused it, and never
    gets a right owner again. -/
theorem owned_replies (h : a.catalog.Tidy) (calls : List (AccountCall κ)) (o : Addr .buffer) :
    (a.catalog.Owned o → ((replies call a calls).2.catalog.Owned o ↔
      .error ↑(Violation.duplicateOutput o.word) ∉ (replies call a calls).1)) ∧
    (a.catalog.Usurped o → (replies call a calls).2.catalog.Usurped o) := by
  induction calls generalizing a with
  | nil => exact ⟨fun howned => by simpa [replies] using howned, id⟩
  | cons k rest ih =>
    obtain ⟨hturn, htidy⟩ := turn h k
    obtain ⟨howned, husurped⟩ := ih htidy
    rw [replies]
    refine ⟨fun h => ?_, fun h => husurped (hturn.usurped h)⟩
    by_cases hr : (a.call k).1 = .error ↑(Violation.duplicateOutput o.word)
    · refine iff_of_false (husurped (hturn.usurped_of_refused hr)).not_owned fun hnot => hnot ?_
      exact List.mem_cons.2 (.inl hr.symm)
    · rw [List.mem_cons, not_or]
      exact (howned (hturn.owned h hr)).trans (iff_and_self.2 fun _ => Ne.symm hr)

/-- What a refused call `k` changes: at most that an output address belongs to who was refused
    it. -/
theorem refused {a' : Accounts κ} {k : AccountCall κ} {f : Failure} (h : a.call k = (.error f, a')) :
    a'.catalog.entries = a.catalog.entries ∧ a'.lists = a.lists ∧
      ∀ o, a'.catalog.sourceOf? o =
        if f = Violation.duplicateOutput o.word then k.claimant? o else a.catalog.sourceOf? o := by
  cases k with
  | register source disposition kind size readOnly => cases h
  | accept l source =>
    dsimp only [call] at h
    split at h <;> cases h
  | mark l source field =>
    dsimp only [call] at h
    split at h
    · cases h
    split at h <;> cases h
    rename_i hmark
    exact ⟨rfl, rfl, fun o => (if_neg (markField_ne_contested hmark _)).symm⟩
  | place source output =>
    dsimp only [call] at h
    rcases a.catalog.place_cases source output with
      ⟨v, hplace, hv⟩ | ⟨e, -, -, -, ⟨owner, -, hplace⟩ | ⟨-, hplace⟩⟩ <;> rw [hplace] at h <;> cases h
    · refine ⟨rfl, rfl, fun o => (if_neg ?_).symm⟩
      rcases hv with rfl | ⟨e, rfl⟩ <;> nofun
    · refine ⟨rfl, rfl, fun o => (Catalog.sourceOf?_withOwner ..).trans ?_⟩
      by_cases ho : output = o
      · simp [ho, AccountCall.claimant?]
      · have hword : output.word ≠ o.word := fun hword => ho (Addr.ext hword)
        simp [ho, hword]
  | addAlias former substitute =>
    dsimp only [call] at h
    split at h <;> cases h
    rename_i hadd
    exact ⟨rfl, rfl, fun o => (if_neg (by simpa using addAlias_ne_contested hadd o.word)).symm⟩

/-- A refused call, after any `calls`, changes neither the entries nor the lists, so every object is
    found, resolves and has its copy as before. An output address keeps its owner, too, unless the
    call was refused it because it was taken: then it belongs to the object that was refused. So
    both directions agree about an output address exactly as long as no copy was refused it. -/
theorem refusals_exact (calls : List (AccountCall κ)) :
    let answers := (replies call empty calls).1
    let a := (replies call empty calls).2
    (∀ k f a', a.call k = (.error f, a') →
      (∀ w, a'.catalog.get? w = a.catalog.get? w ∧ a'.catalog.resolve w = a.catalog.resolve w ∧
        a'.catalog.outputOf w = a.catalog.outputOf w) ∧
      a'.catalog.size = a.catalog.size ∧ a'.lists = a.lists ∧
      ∀ o, a'.catalog.sourceOf? o =
        if f = Violation.duplicateOutput o.word then k.claimant? o else a.catalog.sourceOf? o) ∧
    ∀ o, (∀ s, a.catalog.sourceOf? o = some s ↔
        ∃ e, a.catalog.get? s = some e ∧ e.isAlias = false ∧ e.output? = some o) ↔
      .error ↑(Violation.duplicateOutput o.word) ∉ answers := by
  intro answers a
  refine ⟨fun k f a' hk => ?_, fun o => ?_⟩
  · obtain ⟨hentries, hlists, howners⟩ := refused hk
    have hget : ∀ w, a'.catalog.get? w = a.catalog.get? w := fun w => by
      rw [Catalog.get?, hentries, Catalog.get?]
    refine ⟨fun w => ⟨hget w, ?_, ?_⟩, ?_, hlists, howners⟩
    · rw [Catalog.resolve, hget, Catalog.resolve]
    · rw [Catalog.outputOf, hget, Catalog.outputOf]
    · rw [Catalog.size, hentries, Catalog.size]
  · refine (owned_replies Catalog.Tidy.empty calls o).1 fun s => ?_
    simp [empty, Catalog.Holds, Catalog.empty, Catalog.sourceOf?, Catalog.get?]

/-- Two objects, and an output address that both are given. -/
def contestedCalls : List (AccountCall RegionKind) :=
  [.register 0x1000 .copy .other 16 false, .register 0x2000 .copy .other 16 false,
    .place 0x1000 ⟨0x7000⟩, .place 0x2000 ⟨0x7000⟩]

/-- The address belongs to the object that was refused it, while the copy of the other one is there. -/
theorem refusals_exact_contested :
    let answers := (replies call empty contestedCalls).1
    let a := (replies call empty contestedCalls).2
    answers = [.ok (), .ok (), .ok (), .error ↑(Violation.duplicateOutput 0x7000)] ∧
      a.catalog.sourceOf? ⟨0x7000⟩ = some 0x2000 ∧ a.catalog.outputOf 0x1000 = .ok ⟨0x7000⟩ ∧
      ¬ ∀ s, a.catalog.sourceOf? ⟨0x7000⟩ = some s ↔
        ∃ e, a.catalog.get? s = some e ∧ e.isAlias = false ∧ e.output? = some ⟨0x7000⟩ := by
  have hanswers : (replies call empty contestedCalls).1 =
    [.ok (), .ok (), .ok (), .error ↑(Violation.duplicateOutput 0x7000)] := by decide +kernel
  obtain ⟨-, howned⟩ := refusals_exact contestedCalls
  refine ⟨hanswers, by decide +kernel, by decide +kernel, fun hall => (howned ⟨0x7000⟩).1 hall ?_⟩
  rw [hanswers]
  simp

end Accounts

end SnapshotArchive
