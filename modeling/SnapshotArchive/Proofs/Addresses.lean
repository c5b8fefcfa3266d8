import SnapshotArchive.Proofs.Rebasing

/-!
Archives do not depend on addresses. Two heaps whose objects correspond are archived alike, wherever their
objects lie and wherever the output buffers are, as long as interned strings lie in the same order.
-/

namespace SnapshotArchive

namespace Session

/-- Archives `a` and `a'` are the same, in buffers that may lie at different places. -/
structure Archive.Same (a a' : Archive) : Prop where
  length : a'.buffer.length = a.buffer.length
  mutable : a'.mutable = a.mutable
  readOnly : a'.readOnly = a.readOnly
  words : ∀ i, a'.buffer.words.read i = a.buffer.words.read i
  pointers : a'.pointers = a.pointers
  requested : a'.requested = a.requested

theorem Archive.Rebased.same {base : Word} {a a' : Archive} (h : a.Rebased base base a') : a.Same a' := by
  refine ⟨h.length, h.mutable, h.readOnly, fun i => ?_, h.pointers, ?_⟩
  · rcases hi : a.pointers.has i with - | -
    · exact h.others i hi
    · have hmoved := h.moved i hi
      exact UInt64.toNat_inj.1 (by omega)
  · have hbottom : a'.requested.bottom = a.requested.bottom := by
      have hmoved := h.bottom
      exact Addr.ext (UInt64.toNat_inj.1 (by unfold Addr.toNat at hmoved; omega))
    have htop : a'.requested.top = a.requested.top := by
      have hmoved := h.top
      exact Addr.ext (UInt64.toNat_inj.1 (by unfold Addr.toNat at hmoved; omega))
    rcases hr : a.requested with ⟨bottom, top, _⟩
    rcases hr' : a'.requested with ⟨bottom', top', _⟩
    rw [hr, hr'] at hbottom htop
    obtain rfl := hbottom
    obtain rfl := htop
    rfl

end Session

namespace Heap

/-- The dependency segment of `h`, if it has words, covers `h.segmentBytes` bytes from `h.base`
    on. -/
theorem Sound.dependencyRange?_eq {h : Heap} (hs : h.Sound) (hne : h.segment ≠ 0) :
    ∃ r, h.dependencyRange? = some r ∧ r.bottom.toNat = h.base.toNat ∧
      r.top.toNat = h.base.toNat + h.segmentBytes := by
  have hroom := hs.room
  have hsegment := hs.segment.2
  have hlimit : h.base.toNat + h.segment * wordBytes < addressLimit := by
    unfold wordBytes at *
    omega
  obtain ⟨r, hr, hbottom, htop⟩ := AddrRange.ofLength?_eq_some (p := .mapped) ⟨h.base⟩ hlimit
  refine ⟨r, ?_, ?_, htop⟩
  · rw [dependencyRange?, if_neg hne, hr]
  · rw [hbottom]
    rfl

/-- Dependency segments of the heaps of `p` hold corresponding objects at the same places. -/
theorem Corresponds.dependencyRange {p : Pairing} (hp : p.Fair) :
    Option.Rel (AddrRange.Mates p) p.heap.dependencyRange? p.heap'.dependencyRange? := by
  have hsegment := hp.corresponds.segment
  by_cases hne : p.heap.segment = 0
  · simp only [dependencyRange?, hsegment, hne, if_true]
    exact .none
  · obtain ⟨r, hr, hbottom, htop⟩ := hp.sound.dependencyRange?_eq hne
    obtain ⟨r', hr', hbottom', htop'⟩ := hp.sound'.dependencyRange?_eq (by rw [hsegment]; exact hne)
    have hbytes : p.heap'.segmentBytes = p.heap.segmentBytes := by simp only [segmentBytes, hsegment]
    have habove : ∀ {h : Heap} {a : Word} {o : HeapObject}, h.Sound → h.object? a = some o →
        h.base.toNat ≤ a.toNat := fun hs ho => by
      rw [hs.toNat_place ho]
      exact Nat.le_add_right ..
    rw [hr, hr']
    refine .some ⟨?_, fun a a' hmate => ?_, fun a a' hmate hin => ?_⟩
    · simp only [AddrRange.length, hbottom, hbottom', htop, htop', hbytes]
      omega
    · obtain ⟨o, o', ho, ho', -⟩ := hp.corresponds.object a a' hmate
      obtain ⟨hiff, -⟩ := hp.corresponds.inSegment a a' hmate
      rw [Bool.eq_iff_iff, AddrRange.contains_iff, AddrRange.contains_iff, hbottom, hbottom', htop, htop', hiff]
      exact and_congr_left fun _ => iff_of_true (habove hp.sound' ho') (habove hp.sound ho)
    · obtain ⟨-, hoffset⟩ := hp.corresponds.inSegment a a' hmate
      rw [AddrRange.contains_iff, hbottom, htop] at hin
      rw [hbottom, hbottom']
      exact hoffset hin.2

end Heap

namespace Session

open SessionM

/-- Sessions begin over both heaps of `p` or over neither. -/
theorem agree_begin {p : Pairing} (settings : Settings) {mapped? mapped?' : Option (AddrRange .mapped)}
    (hmapped : Option.Rel (AddrRange.Mates p) mapped? mapped?') (host host' : Host)
    (reservations reservations' : Reservations) :
    Agree True (fun _ _ => True) (begin host reservations settings mapped? false)
      (begin host' reservations' settings mapped?' false) := by
  simp only [begin]
  rcases settings.validate with _ | _
  · trivial
  · rcases hmapped with @⟨r, r', hr⟩ | -
    · have hlength := hr.length
      simp only [Option.mapM_some, Dependency.plan, hlength]
      rcases AddrRange.ofLength? (s := .requested) ⟨settings.requestedBase⟩ r.length with - | requested <;> trivial
    · trivial

/-- Where objects lie makes no difference. Two heaps `h` and `h'` whose objects correspond by
    `Mate`, wherever they lie in either heap and whatever else lies there, are archived alike from
    roots that correspond, in buffers apart from the heaps: sessions begin over both or over
    neither, build over both or over neither, and the archives are the same. -/
theorem build_independent {h h' : Heap} (made : h.Made) (made' : h'.Made) {Mate : Word → Word → Prop}
    (hc : h.Corresponds h' Mate) {roots roots' : List Word}
    (hroots : List.Forall₂ (fun a a' => Mate a a' ∨ h.object? a = none ∧ h'.object? a' = none) roots roots')
    {mapped? mapped?' : Option (AddrRange .mapped)}
    (hmapped : mapped? = none ∧ mapped?' = none ∨
      mapped? = h.dependencyRange? ∧ mapped?' = h'.dependencyRange?)
    {reservations reservations' : Reservations} (hcapacity : reservations'.capacity = reservations.capacity)
    (settings : Settings) (advisories : Advisories) (templates : List DispatchTemplate)
    (hapart : ∀ s o, begin h.toHost reservations settings mapped? false = .ok s →
      ((build roots advisories templates (pure ())).perform s).2.session.output? = some o → h.Apart o.buffer)
    (hapart' : ∀ s o, begin h'.toHost reservations' settings mapped?' false = .ok s →
      ((build roots' advisories templates (pure ())).perform s).2.session.output? = some o →
        h'.Apart o.buffer) :
    Agree True (fun s s' => Agree True (fun _ _ => ∃ a a',
          ((build roots advisories templates (pure ())).perform s).2.session.archive? = some a ∧
          ((build roots' advisories templates (pure ())).perform s').2.session.archive? = some a' ∧ a.Same a')
        ((build roots advisories templates (pure ())).perform s).1
        ((build roots' advisories templates (pure ())).perform s').1)
      (begin h.toHost reservations settings mapped? false)
      (begin h'.toHost reservations' settings mapped?' false) := by
  let p : Pairing := ⟨h, h', Mate, reservations, reservations', settings.requestedBase, settings.requestedBase⟩
  have hp : p.Fair := ⟨made.sound, made'.sound, hc⟩
  have hranges : Option.Rel (AddrRange.Mates p) mapped? mapped?' := by
    rcases hmapped with ⟨rfl, rfl⟩ | ⟨rfl, rfl⟩
    · exact .none
    · exact Heap.Corresponds.dependencyRange hp
  have hbegins := agree_begin settings hranges h.toHost h'.toHost reservations reservations'
  rcases hs : begin h.toHost reservations settings mapped? false with _ | s <;>
    rcases hs' : begin h'.toHost reservations' settings mapped?' false with _ | s' <;> rw [hs, hs'] at hbegins
  · trivial
  · exact hbegins
  · exact hbegins
  have hagree : Agree True _ _ _ := agree_build hp (fun _ => ⟨hcapacity, rfl⟩) (untouched_begin hs)
    (untouched_begin hs') (mates_begin hs hs' rfl rfl rfl rfl hranges) hroots advisories templates ?_
  · exact hagree.imp fun _ _ ⟨a, a', ha, ha', hrebased⟩ => ⟨a, a', ha, ha', hrebased.same⟩
  · rintro length ⟨o, ho, hbottom, rfl⟩ ⟨o', ho', hbottom', hlength⟩
    exact hp.clear_of_apart hbottom hbottom' hlength (hapart s o hs ho) (hapart' s' o' hs' ho')

/-- A heap whose procedure refers to two strings, to an object and to one of the dependency. -/
def closeHeap : Heap :=
  (Heap.create 0x100000000000 2).afterCalls
    [.allocInDependency .other 1, .alloc .procedure 5 none, .alloc .internedString 1 (some "b"),
      .alloc .internedString 1 (some "a"), .alloc .other 1 none,
      .setPointer 0x100000000010 1 (some 0x100000000040) none,
      .setPointer 0x100000000010 2 (some 0x100000000038) none,
      .setPointer 0x100000000010 3 (some 0x100000000048) none,
      .setPointer 0x100000000010 4 (some 0x100000000000) none, .setWord 0x100000000048 0 7]

theorem closeHeap_made : closeHeap.Made := (Heap.Made.create (by decide) (by decide)).afterCalls _

/-- The same objects in another heap, where the procedure comes last and objects that are not referred to
    lie between them. -/
def strewnHeap : Heap :=
  (Heap.create 0x300000000000 2).afterCalls
    [.allocInDependency .other 1, .alloc .internedString 3 (some "c"), .alloc .other 1 none,
      .alloc .internedString 1 (some "b"), .alloc .other 1 none, .alloc .internedString 1 (some "a"),
      .alloc .procedure 5 none, .setPointer 0x300000000048 1 (some 0x300000000040) none,
      .setPointer 0x300000000048 2 (some 0x300000000030) none,
      .setPointer 0x300000000048 3 (some 0x300000000028) none,
      .setPointer 0x300000000048 4 (some 0x300000000000) none, .setWord 0x300000000028 0 7]

theorem strewnHeap_made : strewnHeap.Made := (Heap.Made.create (by decide) (by decide)).afterCalls _

/-- The objects of both heaps. -/
def strewnMates : List (Word × Word) :=
  [(0x100000000000, 0x300000000000), (0x100000000010, 0x300000000048), (0x100000000038, 0x300000000030),
    (0x100000000040, 0x300000000040), (0x100000000048, 0x300000000028)]

/-- What is checked along a list `l` holds of its members. Where these are words, to decide `∀ x ∈
    l` is to try all words. -/
theorem forall_mem_of_all {α : Type} {P : α → Prop} [DecidablePred P] {l : List α}
    (h : (l.all fun x => P x) = true) : ∀ x ∈ l, P x := by
  simpa only [List.all_eq_true, decide_eq_true_eq] using h

theorem strewnHeap_corresponds :
    closeHeap.Corresponds strewnHeap fun a a' => (a, a') ∈ strewnMates := by
  have hpaired : ∀ x ∈ strewnMates, strewnMates.all fun y => (x.1 = y.1 ↔ x.2 = y.2) :=
    forall_mem_of_all (by decide +kernel)
  have hobject : ∀ x ∈ strewnMates, ∃ o ∈ closeHeap.object? x.1, ∃ o' ∈ strewnHeap.object? x.2,
      o'.length = o.length ∧ o'.kind = o.kind ∧ o'.name? = o.name? ∧ o'.readOnly = o.readOnly ∧
        o'.fields.toList = o.fields.toList := forall_mem_of_all (by decide +kernel)
  have hpointers : ∀ x ∈ strewnMates, ∀ o ∈ closeHeap.object? x.1, ∀ i < o.length, i ∈ o.fields →
      (closeHeap.wordAt x.1 i, strewnHeap.wordAt x.2 i) ∈ strewnMates :=
    forall_mem_of_all (by decide +kernel)
  have hothers : ∀ x ∈ strewnMates, ∀ o ∈ closeHeap.object? x.1, ∀ i < o.length, i ∉ o.fields →
      strewnHeap.wordAt x.2 i = closeHeap.wordAt x.1 i := forall_mem_of_all (by decide +kernel)
  have hexcluded : ∀ x ∈ strewnMates, strewnHeap.excluded.contains x.2 = closeHeap.excluded.contains x.1 :=
    forall_mem_of_all (by decide +kernel)
  have hsubstitutes : ∀ x ∈ strewnMates, closeHeap.substitutes[x.1]? = none ∧
      strewnHeap.substitutes[x.2]? = none := forall_mem_of_all (by decide +kernel)
  have hsegment : ∀ x ∈ strewnMates,
      (x.2.toNat < strewnHeap.base.toNat + strewnHeap.segmentBytes ↔
        x.1.toNat < closeHeap.base.toNat + closeHeap.segmentBytes) ∧
      (x.1.toNat < closeHeap.base.toNat + closeHeap.segmentBytes →
        x.2.toNat - strewnHeap.base.toNat = x.1.toNat - closeHeap.base.toNat) :=
    forall_mem_of_all (by decide +kernel)
  have hstrings : ∀ x ∈ strewnMates, strewnMates.all fun y => ∀ o ∈ closeHeap.object? x.1,
      ∀ u ∈ closeHeap.object? y.1, o.kind = .internedString → u.kind = .internedString →
        (x.2 ≤ y.2 ↔ x.1 ≤ y.1) := forall_mem_of_all (by decide +kernel)
  refine ⟨fun a a' b b' ha hb => forall_mem_of_all (hpaired (a, a') ha) (b, b') hb,
    fun a a' ha => ?_,
    fun a a' o i ha ho hfield hi => .inl (hpointers (a, a') ha o ho i hi hfield),
    fun a a' o i ha ho hfield hi => hothers (a, a') ha o ho i hi hfield, fun a a' ha => hexcluded (a, a') ha,
    fun a a' ha => ?_, by decide +kernel, fun a a' ha => hsegment (a, a') ha,
    fun a a' b b' o u ha hb ho hu =>
      forall_mem_of_all (hstrings (a, a') ha) (b, b') hb o ho u hu⟩
  · obtain ⟨o, ho, o', ho', hlength, hkind, hname, hreadOnly, hfields⟩ := hobject (a, a') ha
    exact ⟨o, o', ho, ho', hlength, hkind, hname, hreadOnly, hfields⟩
  · obtain ⟨hnone, hnone'⟩ := hsubstitutes (a, a') ha
    rw [hnone, hnone']
    exact .none

/-- A buffer for either heap. -/
def closeReservations : Reservations := ⟨⟨0x20000⟩, 0x1000, room_fits⟩

@[inherit_doc closeReservations]
def strewnReservations : Reservations := ⟨⟨0x90000⟩, 0x1000, by decide⟩

/-- A session over either heap, as it begins, with a buffer of its own. -/
def closeBegun (settings : Settings) : Except BuildError Session :=
  begin closeHeap.toHost closeReservations settings closeHeap.dependencyRange? false

@[inherit_doc closeBegun]
def strewnBegun (settings : Settings) : Except BuildError Session :=
  begin strewnHeap.toHost strewnReservations settings strewnHeap.dependencyRange? false

/-- The session that building from `root` leaves. -/
def afterBuild (root : Word) (s : Session) : Session :=
  ((build [root] ⟨0, 0, 16⟩ [⟨.procedure, [11, 12]⟩] (pure ())).perform s).2.session

theorem place_of_output? {output? : Option Output} {o : Output} {bottom length : Nat}
    (hplace : some (output?.map fun o => (o.buffer.bottom.toNat, o.buffer.length)) = some (some (bottom, length)))
    (ho : output? = some o) : o.buffer.bottom.toNat = bottom ∧ o.buffer.length = length := by
  subst ho
  exact Prod.mk.inj (Option.some_inj.1 (Option.some_inj.1 hplace))

/-- The archives of both heaps are the same. -/
theorem build_independent_strewn : ∃ s s' a a',
    closeBegun ⟨0x8000, 8, 0, false⟩ = .ok s ∧ strewnBegun ⟨0x8000, 8, 0, false⟩ = .ok s' ∧
    (afterBuild 0x100000000010 s).archive? = some a ∧ (afterBuild 0x300000000048 s').archive? = some a' ∧
      a.Same a' := by
  have hbuilds : ((closeBegun ⟨0x8000, 8, 0, false⟩).toOption.map fun s => ((build [0x100000000010] ⟨0, 0, 16⟩
      [⟨.procedure, [11, 12]⟩] (pure ())).perform s).1.toOption) = some (some ()) := by decide +kernel
  have hplace : (closeBegun ⟨0x8000, 8, 0, false⟩).toOption.map
      (fun s => (afterBuild 0x100000000010 s).output?.map fun o =>
        (o.buffer.bottom.toNat, o.buffer.length)) = some (some (0x20000, 112)) := by decide +kernel
  have hplace' : (strewnBegun ⟨0x8000, 8, 0, false⟩).toOption.map
      (fun s => (afterBuild 0x300000000048 s).output?.map fun o =>
        (o.buffer.bottom.toNat, o.buffer.length)) = some (some (0x90000, 112)) := by decide +kernel
  have hroots : ((0x100000000010 : Word), (0x300000000048 : Word)) ∈ strewnMates := by decide
  have hcapacity : strewnReservations.capacity = closeReservations.capacity := rfl
  -- the settings stay a variable until the theorem is applied, or its statement is evaluated
  obtain ⟨settings, hsettings⟩ : ∃ settings : Settings, settings = ⟨0x8000, 8, 0, false⟩ := ⟨_, rfl⟩
  have hagree := build_independent closeHeap_made strewnHeap_made strewnHeap_corresponds
    (.cons (.inl hroots) .nil) (.inr ⟨rfl, rfl⟩) hcapacity settings ⟨0, 0, 16⟩
    [⟨.procedure, [11, 12]⟩] (fun s o hs ho => ?_) fun s o hs ho => ?_
  · change Agree True _ (closeBegun settings) (strewnBegun settings) at hagree
    subst hsettings
    rcases hs : closeBegun ⟨0x8000, 8, 0, false⟩ with _ | s
    · rw [hs] at hbuilds
      cases hbuilds
    rw [hs] at hbuilds hagree
    have hok := eq_ok_of_toOption (Option.some_inj.1 hbuilds)
    obtain ⟨s', hs', hbuild⟩ := hagree.exists_ok trivial
    rw [hok] at hbuild
    obtain ⟨-, -, a, a', ha, ha', hsame⟩ := hbuild.exists_ok trivial
    exact ⟨s, s', a, a', rfl, hs', ha, ha', hsame⟩
  · subst hsettings
    rw [closeBegun, hs] at hplace
    obtain ⟨hbottom, hlength⟩ := place_of_output? hplace ho
    exact .inl (by rw [hbottom, hlength]; decide +kernel)
  · subst hsettings
    rw [strewnBegun, hs] at hplace'
    obtain ⟨hbottom, hlength⟩ := place_of_output? hplace' ho
    exact .inl (by rw [hbottom, hlength]; decide +kernel)

end Session

end SnapshotArchive
