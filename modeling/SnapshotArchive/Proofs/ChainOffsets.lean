import Mathlib.Tactic.Common
import SnapshotArchive.Proofs.Images
import SnapshotArchive.Proofs.Spans

/-!
Offsets on the chain of archives. The last pass and the queries for offsets know two ways to the same
coordinate: the one adds up requested addresses and looks at the used part of the buffer first, the other
subtracts them and looks at the dependency first. Where the ranges are apart both agree, and no two
addresses of the chain share an offset.
-/

namespace SnapshotArchive

open SessionM

namespace Session

variable {s s' : Session} {o : Output} {d : Dependency}

/-- The dependency of `s` lies on the chain below the buffer of `o`, and in memory apart from it. -/
structure Chained (s : Session) (o : Output) : Prop where
  output : s.output? = some o
  base : s.settings.requestedBase.toNat ≤ o.requestedBottom.toNat
  room : o.requestedBottom.toNat + o.buffer.length < addressLimit
  below : ∀ d, s.dependency? = some d → d.requested.bottom.toNat = s.settings.requestedBase.toNat ∧
    s.settings.requestedBase.toNat + d.mapped.length ≤ o.requestedBottom.toNat
  apart : ∀ d, s.dependency? = some d → ∀ w, d.mapped.contains w = true →
    o.buffer.range.contains w = false

/-- The archive starts at `s.settings.requestedBase` or above it, and above its dependency. -/
theorem Sound.chained (h : s.Sound) (ho : s.output? = some o)
    (hapart : ∀ d, s.dependency? = some d → ∀ w, d.mapped.contains w = true →
      o.buffer.range.contains w = false) : s.Chained o := by
  have hf := h.filled o ho
  have hbottom := hf.bottom
  unfold requestedBottom? at hbottom
  have hbelow : ∀ d, s.dependency? = some d →
      d.requested.bottom.toNat = s.settings.requestedBase.toNat ∧
        s.settings.requestedBase.toNat + d.mapped.length ≤ o.requestedBottom.toNat := by
    intro d hd
    obtain ⟨hbase, hlength⟩ := h.dependency d hd
    obtain ⟨k, hk, -⟩ := Settings.validate_eq_ok h.settings
    rw [hd, hk] at hbottom
    have hle := (alignUp?_bounds hbottom).1
    have hsum := d.requested.bottom_add_length
    have hword : d.requested.bottom.toNat = s.settings.requestedBase.toNat := congrArg UInt64.toNat hbase
    omega
  refine ⟨ho, ?_, hf.room, hbelow, hapart⟩
  cases hd : s.dependency? with
  | none =>
    rw [hd] at hbottom
    exact Nat.le_of_eq (Option.some_inj.1 hbottom)
  | some d =>
    obtain ⟨-, hle⟩ := hbelow d hd
    omega

end Session

theorem Buffer.contains_congr {b b' : Buffer} (hbottom : b'.bottom = b.bottom) (hlength : b'.length = b.length)
    (w : Word) : b'.range.contains w = b.range.contains w := by
  rw [Bool.eq_iff_iff, AddrRange.contains_iff, AddrRange.contains_iff, Buffer.range_top, Buffer.range_top, hlength]
  change b'.bottom.toNat ≤ _ ∧ _ < b'.bottom.toNat + _ ↔ _
  rw [hbottom]
  rfl

namespace SessionM

open Session

variable {s : Session} {o : Output} {d : Dependency} {w : Word} {n : Nat}
variable {E : Failure → Run → Prop} {r : Run}

/-- The address at offset `n` of the buffer has the requested one `n` bytes above
    `o.requestedBottom`. -/
theorem wp_toRequested {Q : Addr .requested → Run → Prop} (h : r.session.Chained o)
    (hn : o.buffer.offsetOf? w = some n) :
    (toRequested ⟨w⟩).wp Q E r = Q ⟨UInt64.ofNat (o.requestedBottom.toNat + n)⟩ r := by
  obtain ⟨hplace, hlt⟩ := Buffer.offsetOf?_eq_some.1 hn
  have hroom := h.room
  have happly : o.shift.apply ⟨w⟩ = .ok ⟨UInt64.ofNat (o.requestedBottom.toNat + n)⟩ := by
    have hw : (⟨w⟩ : Addr .buffer).toNat - o.buffer.bottom.toNat = n := by
      change w.toNat - _ = n
      omega
    rw [← hw]
    refine Shift.apply_between _ _ ?_ ?_ <;> rw [show (⟨w⟩ : Addr .buffer).toNat = w.toNat from rfl] at *
    · omega
    · omega
  unfold toRequested
  simp only [wp_bind, wp_output, h.output, hn, happly, wp_pure]

/-- The address at offset `n` of the buffer has the offset of its requested one above the base. -/
theorem wp_bufferOffset {Q : Nat → Run → Prop} (h : r.session.Chained o)
    (hn : o.buffer.offsetOf? w = some n) :
    (bufferOffset ⟨w⟩).wp Q E r =
      Q (o.requestedBottom.toNat + n - r.session.settings.requestedBase.toNat) r := by
  have hbase := h.base
  have hroom := h.room
  obtain ⟨-, hlt⟩ := Buffer.offsetOf?_eq_some.1 hn
  have hplace : (UInt64.ofNat (o.requestedBottom.toNat + n)).toNat = o.requestedBottom.toNat + n :=
    UInt64.toNat_ofNat_of_lt' (show _ < addressLimit by omega)
  unfold bufferOffset
  rw [wp_bind, wp_toRequested h hn, wp_bind, wp_session, if_pos, wp_pure]
  · change Q ((UInt64.ofNat _).toNat - _) r = _
    rw [hplace]
  · rw [UInt64.le_iff_toNat_le, hplace]
    omega

/-- An address `w` of the dependency has the offset from its bottom. -/
theorem wp_chainOffset_mapped {Q : Nat → Run → Prop} (hd : r.session.dependency? = some d)
    (hw : d.mapped.contains w = true) :
    (chainOffset w).wp Q E r = Q (w.toNat - d.mapped.bottom.toNat) r := by
  have hlow := (AddrRange.contains_iff.1 hw).1
  unfold chainOffset
  simp only [wp_bind, wp_session, hd, Option.bind_some, AddrRange.locate?, hw, if_true, Option.map_some,
    wp_pure, Addr.offsetFrom?]
  rw [if_pos (show d.mapped.bottom.toNat ≤ (⟨w⟩ : Addr .mapped).toNat from hlow)]
  rfl

theorem wp_chainOffset_elsewhere {Q : Nat → Run → Prop}
    (hw : ∀ d, r.session.dependency? = some d → d.mapped.contains w = false) :
    (chainOffset w).wp Q E r =
      (if r.session.output?.any (·.buffer.range.contains w) then bufferOffset ⟨w⟩
        else outputAddr w >>= bufferOffset).wp Q E r := by
  have hnone : (r.session.dependency?.bind fun d => (d.mapped.locate? w).map fun a => (d, a)) = none := by
    cases hd : r.session.dependency? with
    | none => rfl
    | some d => simp [AddrRange.locate?, hw d hd]
  unfold chainOffset
  rw [wp_bind, wp_session, hnone]

/-- An address `w` of the buffer has the offset of its requested one. -/
theorem wp_chainOffset_own {Q : Nat → Run → Prop} (h : r.session.Chained o)
    (hn : o.buffer.offsetOf? w = some n) :
    (chainOffset w).wp Q E r =
      Q (o.requestedBottom.toNat + n - r.session.settings.requestedBase.toNat) r := by
  have hin : o.buffer.range.contains w = true := by
    unfold Buffer.offsetOf? at hn
    by_contra hout
    rw [if_neg hout] at hn
    cases hn
  rw [wp_chainOffset_elsewhere fun d hd => ?_, h.output, Option.any_some, if_pos hin, wp_bufferOffset h hn]
  by_contra hmapped
  rw [h.apart d hd w ((Bool.not_eq_false _).mp hmapped)] at hin
  cases hin

/-- A source object `w` has the offset of its copy at `target`. -/
theorem wp_chainOffset_copy {Q : Nat → Run → Prop} {e : SourceEntry} {target : Addr .buffer}
    (h : r.session.Chained o) (he : r.session.catalog.get? w = some e) (hout : e.output? = some target)
    (hn : o.buffer.offsetOf? target.word = some n)
    (hmapped : ∀ d, r.session.dependency? = some d → d.mapped.contains w = false)
    (hin : o.buffer.range.contains w = false) :
    (chainOffset w).wp Q E r =
      Q (o.requestedBottom.toNat + n - r.session.settings.requestedBase.toNat) r := by
  rw [wp_chainOffset_elsewhere hmapped, h.output, if_neg (by simp [hin]), wp_bind]
  unfold outputAddr Catalog.outputOf
  rw [wp_bind, wp_session, wp_ofViolation, he, Option.bind_some, hout]
  exact wp_bufferOffset h hn

end SessionM

namespace Session

variable {s s' : Session}

/-- The disposition of an object that was found is what `s.classify` makes of a reference to it, one
    that the host may report. -/
def Classified (s : Session) : Prop :=
  ∀ w e, s.catalog.get? w = some e → e.isAlias = false →
    ∃ x, s.host.Refers x ∧ x.pointee = w ∧ e.disposition = s.classify x

theorem classify_congr (hhost : s'.host = s.host) (hdependency : s'.dependency? = s.dependency?) (x : Edge) :
    s'.classify x = s.classify x := by
  unfold classify isExcluded isIncremental
  rw [hhost, hdependency]

/-- What is in the dependency `d` is not copied. -/
theorem mapped_of_classify {x : Edge} {d : Dependency} (hd : s.dependency? = some d)
    (hcopy : s.classify x = .copy) : d.mapped.contains x.pointee = false := by
  by_contra hin
  rw [Bool.not_eq_false] at hin
  have hany : s.dependency?.any (·.mapped.contains x.pointee) = true := by rw [hd]; exact hin
  unfold classify at hcopy
  rw [if_pos hany] at hcopy
  cases hcopy

end Session

namespace SessionM

open Session

variable {s s' : Session}

/-- An entry `e'` that is no stand-in was there before, or its object has just been found by a
    reference `x`. -/
theorem Change.account (hc : Change s s') (hs : s.Sound) {w : Word} {e' : SourceEntry}
    (he' : s'.catalog.get? w = some e') (halias : e'.isAlias = false) :
    (∃ e, s.catalog.get? w = some e ∧ e.isAlias = false ∧ e'.disposition = e.disposition) ∨
      ∃ x, s.host.Refers x ∧ x.pointee = w ∧ e'.disposition = s.classify x := by
  rcases hc.entry_cases hs he' with ⟨e, _, _, he, rfl⟩ | ⟨x, _, refers, rfl, rfl⟩ | ⟨_, _, -, rfl⟩
  · exact .inl ⟨e, he, halias, rfl⟩
  · exact .inr ⟨x, refers, rfl, rfl⟩
  · cases halias

theorem Change.classified (hc : Change s s') (hs : s.Sound) (h : s.Classified) : s'.Classified := by
  intro w e' he' halias
  obtain ⟨hhost, -, hdependency⟩ := hc.frame
  rcases hc.account hs he' halias with ⟨e, he, hplain, hsame⟩ | ⟨x, hx, hw, hfate⟩
  · obtain ⟨x, hx, hw, hfate⟩ := h w e he hplain
    exact ⟨x, hhost ▸ hx, hw, by rw [hsame, hfate, classify_congr hhost hdependency]⟩
  · exact ⟨x, hhost ▸ hx, hw, by rw [hfate, classify_congr hhost hdependency]⟩

end SessionM

namespace Session

variable {s : Session} {o o' : Output} {h : Heap}

/-- A heap `h` reports references to its objects alone. -/
theorem object_of_refers {x : Edge} (hx : h.toHost.Refers x) : (h.object? x.pointee).isSome = true := by
  cases hx with
  | root reported =>
    obtain ⟨o, ho, rfl⟩ := Option.map_eq_some_iff.1 reported
    exact Option.isSome_iff_exists.2 ⟨o, ho⟩
  | held reported mem =>
    obtain ⟨i, ⟨_, -, -, -, -, ht⟩, -⟩ := Heap.holds_of_mem_edges reported mem
    exact ht

/-- An object `w` of a heap that has a copy lies neither in the dependency nor in the buffer. -/
theorem HasCopy.elsewhere {w : Word} {e : SourceEntry} {a : Addr .buffer} (hc : s.HasCopy w e a)
    (hs : s.Sound) (hclassified : s.Classified) (hhost : s.host = h.toHost) (made : h.Made)
    (hapart : h.Apart o.buffer) :
    (∀ d, s.dependency? = some d → d.mapped.contains w = false) ∧ o.buffer.range.contains w = false := by
  obtain ⟨x, hx, rfl, hfate⟩ := hclassified w e hc.1 hc.2.1
  have hcopied : e.isCopied = true := hs.books.copied _ e hc.1 (by rw [hc.2.2]; rfl)
  refine ⟨fun d hd => mapped_of_classify hd (hfate ▸ beq_iff_eq.1 hcopied), ?_⟩
  have hout := (made.sound.toNat_apart hapart (object_of_refers (hhost ▸ hx))).2
  by_contra hin
  rw [Bool.not_eq_false, AddrRange.contains_iff, Buffer.range_top] at hin
  change o.buffer.bottom.toNat ≤ _ ∧ _ at hin
  omega

/-- An address on the chain of archives: `w` is in the dependency of `s` or in the buffer `b`. -/
def OnChain (s : Session) (b : Buffer) (w : Word) : Prop :=
  (∃ d, s.dependency? = some d ∧ d.mapped.contains w = true) ∨ b.range.contains w = true

/-- The offset `n` is what `chainOffset` answers for `w`. -/
def OffsetIs (s : Session) (w : Word) (n : Nat) : Prop := ((chainOffset w).perform s).1 = .ok n

/-- Offsets agree with what the last pass made of the words `old` of the buffer. -/
structure OffsetsAgree (s : Session) (old : Words) (a : Archive) : Prop where
  /-- A pointer was put at its offset from the base address. -/
  marked : ∀ i, a.pointers.has i = true → ∃ n, s.OffsetIs (old.read i) n ∧
    (a.buffer.words.read i).toNat = s.settings.requestedBase.toNat + n
  /-- An object has the offset of its copy, and that is where the copy will be mapped. -/
  copied : ∀ w e target, s.HasCopy w e target → ∃ n r, s.OffsetIs w n ∧ s.OffsetIs target.word n ∧
    ((toRequested target).perform s).1 = .ok r ∧ r.toNat = s.settings.requestedBase.toNat + n
  buffer : ∀ w, a.buffer.range.contains w = true →
    (∃ r, ((toRequested ⟨w⟩).perform s).1 = .ok r) ∧ ∃ n, ((bufferOffset ⟨w⟩).perform s).1 = .ok n
  total : ∀ w, s.OnChain a.buffer w → ∃ n, s.OffsetIs w n
  injective : ∀ v w n, s.OnChain a.buffer v → s.OnChain a.buffer w → s.OffsetIs v n → s.OffsetIs w n →
    v = w
  /-- The dependency comes first. -/
  ordered : ∀ d v w m n, s.dependency? = some d → d.mapped.contains v = true →
    a.buffer.range.contains w = true → s.OffsetIs v m → s.OffsetIs w n → m < n

section Chained

variable {d : Dependency} {v w : Word} {m n : Nat}

theorem OffsetIs.unique (hm : s.OffsetIs w m) (hn : s.OffsetIs w n) : m = n :=
  Except.ok.inj (hm.symm.trans hn)

theorem offsetIs_mapped (hd : s.dependency? = some d) (hw : d.mapped.contains w = true) :
    s.OffsetIs w (w.toNat - d.mapped.bottom.toNat) :=
  congrArg Prod.fst (on_eq_ok (r := ⟨s, #[]⟩) ((wp_chainOffset_mapped hd hw).mpr ⟨rfl, rfl⟩))

namespace Chained

/-- The offset of a byte of the buffer. -/
theorem contains (hw : o.buffer.range.contains w = true) :
    ∃ n, o.buffer.offsetOf? w = some n ∧ w.toNat = o.buffer.bottom.toNat + n ∧ n < o.buffer.length := by
  have hn : o.buffer.offsetOf? w = some (w.toNat - o.buffer.bottom.toNat) := if_pos hw
  exact ⟨_, hn, Buffer.offsetOf?_eq_some.1 hn⟩

variable (hchain : s.Chained o)
include hchain

theorem offsetIs_own (hn : o.buffer.offsetOf? w = some n) :
    s.OffsetIs w (o.requestedBottom.toNat + n - s.settings.requestedBase.toNat) :=
  congrArg Prod.fst (on_eq_ok (r := ⟨s, #[]⟩) ((wp_chainOffset_own hchain hn).mpr ⟨rfl, rfl⟩))

theorem bufferOffset_eq (hn : o.buffer.offsetOf? w = some n) :
    ((bufferOffset ⟨w⟩).perform s).1 = .ok (o.requestedBottom.toNat + n - s.settings.requestedBase.toNat) :=
  congrArg Prod.fst (on_eq_ok (r := ⟨s, #[]⟩) ((wp_bufferOffset hchain hn).mpr ⟨rfl, rfl⟩))

theorem toRequested_eq (hn : o.buffer.offsetOf? w = some n) :
    ((toRequested ⟨w⟩).perform s).1 = .ok ⟨UInt64.ofNat (o.requestedBottom.toNat + n)⟩ :=
  congrArg Prod.fst (on_eq_ok (r := ⟨s, #[]⟩) ((wp_toRequested hchain hn).mpr ⟨rfl, rfl⟩))

/-- The offset of an object `w` that has a copy at `target`, or that was replaced by one. -/
theorem offsetIs_output {e : SourceEntry} {target : Addr .buffer} (he : s.catalog.get? w = some e)
    (htarget : e.output? = some target) (hn : o.buffer.offsetOf? target.word = some n)
    (helsewhere : (∀ d, s.dependency? = some d → d.mapped.contains w = false) ∧
      o.buffer.range.contains w = false) :
    s.OffsetIs w (o.requestedBottom.toNat + n - s.settings.requestedBase.toNat) :=
  congrArg Prod.fst (on_eq_ok (r := ⟨s, #[]⟩)
    ((wp_chainOffset_copy hchain he htarget hn helsewhere.1 helsewhere.2).mpr ⟨rfl, rfl⟩))

theorem total (hw : s.OnChain o.buffer w) : ∃ n, s.OffsetIs w n := by
  rcases hw with ⟨d, hd, hw⟩ | hw
  · exact ⟨_, offsetIs_mapped hd hw⟩
  · obtain ⟨n, hn, -⟩ := contains hw
    exact ⟨_, hchain.offsetIs_own hn⟩

/-- The dependency ends below the archive, so the offset `m` of its address comes before the offset
    `n`. -/
theorem ordered (hd : s.dependency? = some d) (hv : d.mapped.contains v = true)
    (hw : o.buffer.range.contains w = true) (hm : s.OffsetIs v m) (hn : s.OffsetIs w n) : m < n := by
  obtain ⟨k, hk, -⟩ := contains hw
  obtain rfl := hm.unique (offsetIs_mapped hd hv)
  obtain rfl := hn.unique (hchain.offsetIs_own hk)
  obtain ⟨hlow, hhigh⟩ := AddrRange.contains_iff.1 hv
  have hlength := d.mapped.bottom_add_length
  have hbelow := (hchain.below d hd).2
  omega

theorem injective (hv : s.OnChain o.buffer v) (hw : s.OnChain o.buffer w) (hm : s.OffsetIs v n)
    (hn : s.OffsetIs w n) : v = w := by
  rw [← UInt64.toNat_inj]
  rcases hv with ⟨d, hd, hv⟩ | hv <;> rcases hw with ⟨d', hd', hw⟩ | hw
  · obtain rfl : d = d' := Option.some_inj.1 (hd.symm.trans hd')
    have hlow := (AddrRange.contains_iff.1 hv).1
    have hlow' := (AddrRange.contains_iff.1 hw).1
    have heq := (offsetIs_mapped hd hv).unique hm
    have heq' := (offsetIs_mapped hd hw).unique hn
    omega
  · exact absurd (hchain.ordered hd hv hw hm hn) (Nat.lt_irrefl _)
  · exact absurd (hchain.ordered hd' hw hv hn hm) (Nat.lt_irrefl _)
  · obtain ⟨k, hk, hplace, -⟩ := contains hv
    obtain ⟨k', hk', hplace', -⟩ := contains hw
    have heq := (hchain.offsetIs_own hk).unique hm
    have heq' := (hchain.offsetIs_own hk').unique hn
    have hbase := hchain.base
    omega

/-- A pointer `w` that was shifted to `w'` is where its offset `n` says. -/
theorem shifts {s₀ : Session} {o₀ : Output} {requested : AddrRange .requested} {w' : Word}
    (hdependency : s.dependency? = s₀.dependency?) (hbottom : o.buffer.bottom = o₀.buffer.bottom)
    (hrequested : o.requestedBottom = o₀.requestedBottom) (htop : o₀.arena.pack.top ≤ o.buffer.length)
    (hshift : s₀.Shifts o₀ requested w w') :
    ∃ n, s.OffsetIs w n ∧ w'.toNat = s.settings.requestedBase.toNat + n := by
  cases hshift with
  | own here shift =>
    obtain ⟨hlow, hhigh⟩ := here
    have hn : o.buffer.offsetOf? w = some (w.toNat - o.buffer.bottom.toNat) :=
      Buffer.offsetOf?_eq_some.2 (by rw [hbottom]; omega)
    refine ⟨_, hchain.offsetIs_own hn, ?_⟩
    have hbase := hchain.base
    rw [hbottom, hrequested] at *
    omega
  | foreign _ hd there shift =>
    have hd' := hdependency.trans hd
    refine ⟨_, offsetIs_mapped hd' there, ?_⟩
    have hlow := (AddrRange.contains_iff.1 there).1
    have hbase := (hchain.below _ hd').1
    omega

/-- An object `w` and its copy at `target` have the offset at which the copy will be mapped. -/
theorem copied {e : SourceEntry} {target : Addr .buffer} (hs : s.Sound) (hc : s.HasCopy w e target)
    (hsize : 0 < e.size) (helsewhere : (∀ d, s.dependency? = some d → d.mapped.contains w = false) ∧
      o.buffer.range.contains w = false) :
    ∃ n r, s.OffsetIs w n ∧ s.OffsetIs target.word n ∧ ((toRequested target).perform s).1 = .ok r ∧
      r.toNat = s.settings.requestedBase.toNat + n := by
  have hf := hs.filled o hchain.output
  obtain ⟨offset, hplace, -, -, hroom⟩ := hf.layout.inside w e target hc.1 hc.2.2
  have htop := hf.arena.top_le_length
  have hlength := hf.length
  have hn : o.buffer.offsetOf? target.word = some offset :=
    Buffer.offsetOf?_eq_some.2 ⟨hplace, by omega⟩
  refine ⟨_, _, hchain.offsetIs_output hc.1 hc.2.2 hn helsewhere, hchain.offsetIs_own hn, hchain.toRequested_eq hn, ?_⟩
  have hbase := hchain.base
  have hlimit := hchain.room
  rw [Addr.ofNat_toNat (by omega)]
  omega

end Chained

end Chained

/-- A final pass that succeeds after `calls` leaves an archive on the chain, if the buffer lies
    apart from where the dependency is mapped. -/
theorem chained_of_pass {host : Host} {reservations : Reservations} {settings : Settings}
    {mapped? : Option (AddrRange .mapped)} {alive : Bool}
    (hbegin : begin host reservations settings mapped? alive = .ok s) (calls : List Call)
    (ho : (s.afterCalls calls).output? = some o)
    (hmapped : ∀ m, mapped? = some m → ∀ w, m.contains w = true → o.buffer.range.contains w = false)
    (hok : (relocate.perform (s.afterCalls calls)).1 = .ok ()) :
    ∃ o' a, Call.relocate.after (s.afterCalls calls) =
        { s.afterCalls calls with output? := some o', stage := .relocated } ∧
      (Call.relocate.after (s.afterCalls calls)).archive? = some a ∧ a.buffer = o'.buffer ∧
      (s.afterCalls calls).Finished o a ∧ o'.requestedBottom = o.requestedBottom ∧
      Chained (Call.relocate.after (s.afterCalls calls)) o' := by
  have hdevelops := (sound_begin hbegin).develops calls
  have hs := hdevelops.sound
  obtain ⟨_, -, o', hland, hafter⟩ | ⟨f, hf, -⟩ :=
    (triple_relocate hs ho (stage_of_perform hok)).perform rfl
  swap
  · exact nomatch hok.symm.trans hf
  have hs' : (Call.relocate.after (s.afterCalls calls)).Sound := Call.relocate.sound_after hs
  obtain ⟨a, ha, hfinished⟩ := finished_of_landed hs hland
  change Call.relocate.after (s.afterCalls calls) = _ at hafter
  rw [hafter] at hs' ⊢
  obtain ⟨-, o₂, requested, ho₂, rfl⟩ := archive?_eq_some ha
  obtain rfl : o' = o₂ := Option.some_inj.1 ho₂
  refine ⟨o', _, rfl, ha, rfl, hfinished, hland.requested, hs'.chained rfl fun d hd w hw => ?_⟩
  rw [Buffer.contains_congr hland.bottom hland.length w]
  refine hmapped d.mapped ?_ w hw
  obtain ⟨-, d?, hd?, rfl⟩ := begin_eq_ok hbegin
  have hstart : d? = some d := hdevelops.frame.2.2.symm.trans hd
  rw [← (mapM_plan_eq_ok hd?).1, hstart]
  rfl

/-- What is found in a reference heap is classified after any `calls`. -/
theorem classified_afterCalls {host : Host} {reservations : Reservations} {settings : Settings}
    {mapped? : Option (AddrRange .mapped)} {alive : Bool}
    (hbegin : begin host reservations settings mapped? alive = .ok s) (calls : List Call) :
    (s.afterCalls calls).host = host ∧ (s.afterCalls calls).Classified := by
  have hdevelops := (sound_begin hbegin).develops calls
  obtain ⟨-, d?, -, rfl⟩ := begin_eq_ok hbegin
  refine ⟨hdevelops.frame.1, hdevelops.keeps (fun _ _ hs _ hc => hc.classified hs) fun w e he => ?_⟩
  simp [fresh] at he

/-- Any final pass that succeeds after `calls` agrees with the offsets, if the buffer lies apart
    from the heap `h` and from where the dependency is mapped. -/
theorem offsets_agree (made : h.Made) {reservations : Reservations} {settings : Settings}
    {mapped? : Option (AddrRange .mapped)} {alive : Bool}
    (hbegin : begin h.toHost reservations settings mapped? alive = .ok s) (calls : List Call)
    (ho : (s.afterCalls calls).output? = some o) (hheap : h.Apart o.buffer)
    (hmapped : ∀ m, mapped? = some m → ∀ w, m.contains w = true → o.buffer.range.contains w = false)
    (hok : (relocate.perform (s.afterCalls calls)).1 = .ok ()) :
    ∃ a, (Call.relocate.after (s.afterCalls calls)).archive? = some a ∧
      OffsetsAgree (Call.relocate.after (s.afterCalls calls)) o.buffer.words a := by
  obtain ⟨hhost, hclassified⟩ := classified_afterCalls hbegin calls
  have hs := ((sound_begin hbegin).develops calls).sound
  have hsized : ∀ w e, (s.afterCalls calls).catalog.get? w = some e → 0 < e.size := by
    refine ((spread_begin hbegin).afterCalls (sound_begin hbegin) ?_ calls).sized
    obtain ⟨-, d?, -, rfl⟩ := begin_eq_ok hbegin
    exact made.sound.sized
  have hstage := stage_of_perform hok
  have hs' : (Call.relocate.after (s.afterCalls calls)).Sound := Call.relocate.sound_after hs
  obtain ⟨o', a, hafter, ha, hbuffer, hfinished, hrequested, hchain⟩ :=
    chained_of_pass hbegin calls ho hmapped hok
  have hbottom : o'.buffer.bottom = o.buffer.bottom := hbuffer ▸ hfinished.bottom
  have hlength : o'.buffer.length = o.buffer.length := hbuffer ▸ hfinished.length
  have hin (w : Word) : o'.buffer.range.contains w = o.buffer.range.contains w :=
    Buffer.contains_congr hbottom hlength w
  refine ⟨a, ha, fun i hi => ?_, fun w e target hc => ?_, fun w hw => ?_, fun w hw => ?_,
    fun v w n hv hw hm hn => ?_, fun d v w m n hd hv hw hm hn => hchain.ordered hd hv (hbuffer ▸ hw) hm hn⟩
  · have hmark := hfinished.marks i
    rw [hi, eq_comm, Bool.and_eq_true, bne_iff_ne] at hmark
    have hpack := pack_top_le (hs.filled o ho) (by rw [hstage]; decide)
    exact hchain.shifts (by rw [hafter]) hbottom hrequested (hpack.trans (Nat.le_of_eq hlength.symm))
      (hfinished.pointers i hmark.1 hmark.2)
  · have hc' : (s.afterCalls calls).HasCopy w e target := by
      rw [hafter] at hc
      exact hc
    refine hchain.copied hs' hc (hsized w e hc'.1) ?_
    obtain ⟨hout, hin'⟩ := hc'.elsewhere hs hclassified hhost made hheap
    rw [hafter]
    exact ⟨hout, (hin w).trans hin'⟩
  · obtain ⟨n, hn, -⟩ := Chained.contains (hbuffer ▸ hw)
    exact ⟨⟨_, hchain.toRequested_eq hn⟩, _, hchain.bufferOffset_eq hn⟩
  · exact hchain.total (hbuffer ▸ hw)
  · exact hchain.injective (hbuffer ▸ hv) (hbuffer ▸ hw) hm hn

/-- The mixed heap and its dependency lie apart from a buffer `b` below. -/
theorem mixedHeap_apart {b : Buffer} (htop : b.bottom.toNat + b.length ≤ 0x100000000000) :
    mixedHeap.Apart b ∧
      ∀ m, mixedHeap.dependencyRange? = some m → ∀ w, m.contains w = true → b.range.contains w = false := by
  refine ⟨.inl ?_, fun m hm w hw => ?_⟩
  · have hbase : mixedHeap.base.toNat = 0x100000000000 := by decide +kernel
    omega
  · have hstart : mixedHeap.dependencyRange?.map (·.bottom.toNat) = some 0x100000000000 := by decide +kernel
    rw [hm, Option.map_some, Option.some_inj] at hstart
    have hlow := (AddrRange.contains_iff.1 hw).1
    by_contra hin
    rw [Bool.not_eq_false, AddrRange.contains_iff, Buffer.range_top] at hin
    omega

/-- The mixed heap is copied and wired; its first two words stand for the dependency. -/
def mixedWired : Session :=
  mixedSession.afterCalls
    [.gather [0x100000000010], .reserveBuffer ⟨0, 0, 16⟩, .copyMutable noTables, .copyReadOnly noTables,
      .wire]

/-- Its output. -/
def mixedOutput : Output := mixedWired.output?.get (by decide +kernel)

/-- The procedure lies behind the dependency and the bottom padding, 16 bytes each. -/
theorem offsets_agree_mixed :
    mixedBegun = .ok mixedSession ∧ mixedWired.output? = some mixedOutput ∧
    (relocate.perform mixedWired).1 = .ok () ∧
    (∃ a, (Call.relocate.after mixedWired).archive? = some a ∧
      OffsetsAgree (Call.relocate.after mixedWired) mixedOutput.buffer.words a) ∧
    (Call.relocate.after mixedWired).OffsetIs 0x100000000000 0 ∧
    (Call.relocate.after mixedWired).OffsetIs 0x100000000010 32 := by
  have hbegin : mixedBegun = .ok mixedSession := eq_ok_of_toOption (Option.some_get _).symm
  have hout : mixedWired.output? = some mixedOutput := (Option.some_get _).symm
  have hok : (relocate.perform mixedWired).1 = .ok () := eq_ok_of_toOption (by decide +kernel)
  have hbottom : mixedOutput.buffer.bottom.toNat = 0x20000 := by decide +kernel
  have hlength : mixedOutput.buffer.length = 88 := by decide +kernel
  refine ⟨hbegin, hout, hok, ?_, eq_ok_of_toOption (by decide +kernel), eq_ok_of_toOption (by decide +kernel)⟩
  obtain ⟨hheap, hmapped⟩ := mixedHeap_apart (b := mixedOutput.buffer) (by rw [hbottom, hlength]; decide)
  exact offsets_agree mixedHeap_made hbegin _ hout hheap hmapped hok

end Session

end SnapshotArchive
