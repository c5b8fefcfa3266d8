import Mathlib.Tactic.Common
import SnapshotArchive.Proofs.Aliases
import SnapshotArchive.Proofs.Assembling
import SnapshotArchive.Proofs.Finishing

/-!
The image of a heap in an archive. Each copy holds the words of its object, but for two kinds of slots:
a field that holds the address of an object leads to where that object ended up, and the first word of
an object with a dispatch table leads to the table. Just these slots are marked.
-/

namespace SnapshotArchive

open SessionM

/-- The buffer `b` lies outside of the words of `h`. -/
def Heap.Apart (h : Heap) (b : Buffer) : Prop :=
  b.bottom.toNat + b.length ≤ h.base.toNat ∨ h.base.toNat + wordBytes * h.extent ≤ b.bottom.toNat

namespace Session

namespace Archive

/-- The word of the buffer that holds word `i` of what lies at `target`. -/
def slot (a : Archive) (target : Addr .buffer) (i : Nat) : Nat :=
  (target.toNat - a.buffer.bottom.toNat) / wordBytes + i

/-- Where the address `target` of the buffer is requested. -/
def requestedPlace (a : Archive) (target : Addr .buffer) : Nat :=
  a.requested.bottom.toNat + (target.toNat - a.buffer.bottom.toNat)

/-- Word `i` holds an address and is marked, or it is null and not marked. -/
def Points (a : Archive) (i : Nat) : Option Nat → Prop
  | some n => (a.buffer.words.read i).toNat = n ∧ a.pointers.has i = true
  | none => a.buffer.words.read i = 0 ∧ a.pointers.has i = false

/-- Word `i` of `a` is `w` and no pointer. -/
def Plain (a : Archive) (i : Nat) (w : Word) : Prop :=
  a.buffer.words.read i = w ∧ a.pointers.has i = false

end Archive

/-- What a pointer to an object becomes in `a`: the requested address of its copy or of the object
    in the dependency, null, or what a pointer to its substitute becomes. -/
inductive EndsUp (s : Session) (a : Archive) : Word → Option Nat → Prop where
  | copied {t : Word} {e : SourceEntry} {target : Addr .buffer} (copy : s.HasCopy t e target) :
      EndsUp s a t (some (a.requestedPlace target))
  | existing {t : Word} {e : SourceEntry} {d : Dependency} (entry : s.catalog.get? t = some e)
      (plain : e.isAlias = false) (fate : e.disposition = .aliasToExisting)
      (dependency : s.dependency? = some d) (there : d.mapped.contains t = true) :
      EndsUp s a t (some (s.settings.requestedBase.toNat + (t.toNat - d.mapped.bottom.toNat)))
  | nulled {t : Word} {e : SourceEntry} (entry : s.catalog.get? t = some e) (plain : e.isAlias = false)
      (fate : e.disposition = .nullOut) : EndsUp s a t none
  | replaced {t substitute : Word} {place? : Option Nat}
      (by_ : s.host.substitute? t = some substitute) (rest : EndsUp s a substitute place?) :
      EndsUp s a t place?

/-- The session `s` once its output is finished as `o`. -/
def finish (s : Session) (o : Output) : Session := { s with output? := some o, stage := .relocated }

variable {s : Session} {o : Output} {a : Archive} {i : Nat}

namespace Finished

/-- A marked pointer to `target` in the used part of the buffer points to where that is
    requested. -/
theorem points_own (hf : s.Finished o a) {target : Addr .buffer} (hmark : o.pointers.has i = true)
    (hread : o.buffer.words.read i = target.word) (hin : o.InUse target.word)
    (hlow : o.buffer.bottom.toNat < target.toNat) : a.Points i (some (a.requestedPlace target)) := by
  have hne : o.buffer.words.read i ≠ 0 := by
    intro hzero
    rw [hread] at hzero
    unfold Addr.toNat at hlow
    rw [hzero] at hlow
    exact absurd hlow (Nat.not_lt_zero _)
  have hmarks := hf.marks i
  rw [hmark, Bool.true_and, bne_iff_ne.2 hne] at hmarks
  refine ⟨?_, hmarks⟩
  unfold Archive.requestedPlace
  rw [hf.requested_bottom, hf.bottom]
  cases hf.pointers i hmark hne with
  | own _ shift =>
    rw [hread] at shift
    change (_ : Int) = target.toNat + _ at shift
    omega
  | foreign elsewhere => exact absurd (hread ▸ hin) elsewhere

/-- A marked pointer that leads out of the buffer leads into the dependency `d`. -/
theorem points_existing (hf : s.Finished o a) (hs : s.Sound) (hmark : o.pointers.has i = true)
    (hne : o.buffer.words.read i ≠ 0) (hout : ¬o.InUse (o.buffer.words.read i)) :
    ∃ d, s.dependency? = some d ∧ d.mapped.contains (o.buffer.words.read i) = true ∧
      a.Points i (some (s.settings.requestedBase.toNat +
        ((o.buffer.words.read i).toNat - d.mapped.bottom.toNat))) := by
  have hmarks := hf.marks i
  rw [hmark, Bool.true_and, bne_iff_ne.2 hne] at hmarks
  cases hf.pointers i hmark hne with
  | own here => exact absurd here hout
  | @foreign d _ hd there shift =>
    have hbase : d.requested.bottom.toNat = s.settings.requestedBase.toNat :=
      congrArg UInt64.toNat (hs.dependency d hd).1
    have hlow := (AddrRange.contains_iff.1 there).1
    exact ⟨d, hd, there, by omega, hmarks⟩

/-- A null word `i` is not marked in the end. -/
theorem points_null (hf : s.Finished o a) (hzero : o.buffer.words.read i = 0) : a.Points i none := by
  have hmarks := hf.marks i
  rw [hzero, bne_self_eq_false, Bool.and_false] at hmarks
  exact ⟨(hf.others i (Or.inr hzero)).trans hzero, hmarks⟩

/-- A word `i` that is not marked stays. -/
theorem plain (hf : s.Finished o a) (hmark : o.pointers.has i = false) :
    a.Plain i (o.buffer.words.read i) := by
  have hmarks := hf.marks i
  rw [hmark, Bool.false_and] at hmarks
  exact ⟨hf.others i (Or.inl hmark), hmarks⟩

end Finished

end Session

/-- Word `i` of a copy starts out as that of its object, but for the table in front. -/
theorem copiedWord_eq {tables : TableProvider} {host : Host} {e : SourceEntry} {target : Addr .buffer}
    {i : Nat} (htable : i = 0 → tables e.kind target = none) :
    copiedWord tables host e target i = host.wordAt e.source i := by
  cases i with
  | zero =>
    unfold copiedWord
    rw [htable rfl]
  | succ j => rfl

namespace Assembled

open Session

variable {h : Heap} {g s : Session} {tables : TableProvider} {low : Nat} {below : Nat → Word}
  {o : Output} {w t : Word} {e : SourceEntry} {target : Addr .buffer} {i : Nat}

/-- Only objects of the heap have entries: there is one at `w`. -/
theorem object_of_entry (ha : Assembled h g tables low below s o) (he : s.catalog.get? w = some e) :
    (h.object? w).isSome = true := by
  cases ha.fills.leads w e he with
  | @own _ x entry plain =>
    obtain ⟨obj, hobj, -⟩ := ha.cataloged.object w _ (ha.fills.own w x entry plain)
    rw [hobj]
    rfl
  | replaced former =>
    rw [ha.fills.replaced] at former
    exact ha.cataloged.former w former

/-- The copy of `w` is not empty. -/
theorem size_pos (ha : Assembled h g tables low below s o) (hcopy : s.HasCopy w e target) :
    0 < e.size / wordBytes := by
  obtain ⟨obj, -, -, hsize, hpos, -⟩ := ha.copy hcopy
  rw [hsize, Nat.mul_div_cancel_left _ (by decide)]
  exact hpos

/-- A field `i` of a copy starts out with the address of `t` that it holds. -/
theorem holds_word (ha : Assembled h g tables low below s o) (hcopy : s.HasCopy w e target)
    (hholds : h.Holds w i t) (htable : i = 0 → tables e.kind target = none) :
    copiedWord tables s.host e target i = t := by
  obtain ⟨-, -, -, -, -, hsource, -⟩ := ha.copy hcopy
  obtain ⟨obj, hobj, -, -, hread, -⟩ := hholds
  rw [copiedWord_eq htable, hsource, ha.fills.host, ha.cataloged.host]
  exact (ha.heap.wordAt_eq hobj i).trans hread

end Assembled

/-- The object at `t` does not lie in a buffer `b` apart from the heap. -/
theorem Heap.Sound.toNat_apart {h : Heap} (hs : h.Sound) {t : Word} {b : Buffer} (hapart : h.Apart b)
    (ht : (h.object? t).isSome = true) :
    0 < t.toNat ∧ (t.toNat < b.bottom.toNat ∨ b.bottom.toNat + b.length ≤ t.toNat) := by
  obtain ⟨obj, hobj⟩ := Option.isSome_iff_exists.1 ht
  have hplace := hs.toNat_place hobj
  have hend := hs.end_le hobj
  have hfilled := hs.filled t obj hobj
  have habove := hs.above
  unfold Heap.Apart at hapart
  unfold wordBytes at *
  omega

namespace Linked

open Session

variable {h : Heap} {g s : Session} {tables : TableProvider} {low : Nat} {below : Nat → Word}
  {o o₁ o₂ : Output} {a : Archive} {t w : Word} {e : SourceEntry} {target : Addr .buffer} {i : Nat}

/-- An address `x` of the buffer below the top is in use. -/
theorem inUse (hl : Linked h g tables low below s o o₁) {x : Word}
    (hlow : o.buffer.bottom.toNat ≤ x.toNat) (hhigh : x.toNat < o.buffer.bottom.toNat + o.arena.top) :
    o₁.InUse x := by
  have hf := hl.assembled.sound.filled o hl.assembled.output
  have hpack := hf.arena.top_le_pack (hf.switched (by rw [hl.stage]; decide))
  unfold Output.InUse
  rw [hl.wired.room.bottom, hl.wired.room.arena]
  omega

theorem copy_inUse (hl : Linked h g tables low below s o o₁) (hcopy : s.HasCopy w e target) :
    o₁.InUse target.word ∧ o₁.buffer.bottom.toNat < target.toNat := by
  obtain ⟨hplace, hlow, hhigh⟩ := hl.assembled.place hcopy
  have hpos := hl.assembled.size_pos hcopy
  rw [hl.wired.room.bottom]
  unfold bottomPadding wordBytes at *
  have hnear : o.buffer.bottom.toNat ≤ target.toNat ∧
      target.toNat < o.buffer.bottom.toNat + o.arena.top := by omega
  exact ⟨hl.inUse hnear.1 hnear.2, by omega⟩

/-- The object at `t` is not in use in a buffer apart from the heap. -/
theorem object_not_inUse (hl : Linked h g tables low below s o o₁) (hapart : h.Apart o.buffer)
    (ht : (h.object? t).isSome = true) : ¬o₁.InUse t := by
  obtain ⟨-, hout⟩ := hl.assembled.heap.toNat_apart hapart ht
  have hpack := pack_top_le (hl.sound.filled o₁ rfl) (show 4 ≤ 5 by decide)
  rw [hl.wired.room.length] at hpack
  unfold Output.InUse
  rw [hl.wired.room.bottom]
  omega

variable (hfin : Finished { s with output? := some o₁, stage := .wired } o₁ a)

include hfin

theorem slot_eq (hl : Linked h g tables low below s o o₁) : a.slot target i = o.spot target + i := by
  unfold Archive.slot Output.spot
  rw [hfin.bottom, hl.wired.room.bottom]

/-- A copy lies in the region that its object asks for. -/
theorem within (hl : Linked h g tables low below s o o₁)
    (hlanded : Landed { s with output? := some o₁, stage := .wired } o₁ o₂) (hcopy : s.HasCopy w e target) :
    (o₁.arena.pack.region (.ofReadOnly e.readOnly)).base ≤ target.toNat - a.buffer.bottom.toNat ∧
      target.toNat - a.buffer.bottom.toNat + e.size ≤
        (o₁.arena.pack.region (.ofReadOnly e.readOnly)).top := by
  have hs := hlanded.sound hl.sound rfl (show 4 ≤ 5 by decide)
  have hf := hs.filled o₂ rfl
  have hin := hf.layout.within hs.books hf.arena hcopy.1 hcopy.2.1 hcopy.2.2
  rw [hlanded.arena, hlanded.bottom] at hin
  rw [hfin.bottom]
  exact hin

/-- A word that was wired for `t` holds what pointers to that object become. -/
theorem points_of_leads (hl : Linked h g tables low below s o o₁) (hapart : h.Apart o.buffer)
    (hsub : ∀ former ∈ s.replaced, ∀ substitute x, s.host.substitute? former = some substitute →
      s.catalog.get? substitute = some x → x.disposition ≠ .aliasToExisting)
    (hleads : s.Leads t) {outcome : Resolution} (hout : s.catalog.resolve t = .ok outcome)
    (hread : o₁.buffer.words.read i = outcome.word)
    (hmark : outcome.word ≠ 0 → o₁.pointers.has i = true) :
    ∃ place?, EndsUp (s.finish o₂) a t place? ∧ a.Points i place? := by
  -- on how references lead: to the object's own entry, or to that of its substitute
  induction hleads with
  | @own t e entry plain =>
    obtain ⟨x, hx, hr⟩ := Catalog.resolve_eq_ok.1 hout
    obtain rfl : e = x := Option.some_inj.1 (entry.symm.trans hx)
    unfold SourceEntry.resolution? at hr
    cases hd : e.disposition with
    | copy =>
      rw [hd] at hr
      obtain ⟨target, htarget, rfl⟩ := Option.map_eq_some_iff.1 hr
      have hcopy : s.HasCopy t e target := ⟨entry, plain, htarget⟩
      obtain ⟨hin, hlow⟩ := hl.copy_inUse hcopy
      have hne : target.word ≠ 0 := by
        intro hzero
        unfold Addr.toNat at hlow
        rw [hzero] at hlow
        exact absurd hlow (Nat.not_lt_zero _)
      exact ⟨_, .copied hcopy, hfin.points_own (hmark hne) hread hin hlow⟩
    | aliasToExisting =>
      rw [hd] at hr
      cases hr
      have hobject := hl.assembled.object_of_entry entry
      have hsource : e.source = t := hl.assembled.sound.books.keyed t e entry
      change o₁.buffer.words.read i = e.source at hread
      rw [hsource] at hread
      have hne : o₁.buffer.words.read i ≠ 0 := by
        intro hzero
        have hpos := (hl.assembled.heap.toNat_apart hapart hobject).1
        rw [← hread, hzero] at hpos
        exact absurd hpos (Nat.lt_irrefl 0)
      obtain ⟨d, hdep, hin, hpoints⟩ := hfin.points_existing hl.sound
        (hmark (by change e.source ≠ 0; rw [hsource, ← hread]; exact hne)) hne
        (by rw [hread]; exact hl.object_not_inUse hapart hobject)
      rw [hread] at hin hpoints
      exact ⟨_, .existing entry plain hd hdep hin, hpoints⟩
    | nullOut =>
      rw [hd] at hr
      cases hr
      exact ⟨none, .nulled entry plain hd, hfin.points_null hread⟩
  | @replaced t substitute x former by_ entry settled standIn _ ih =>
    obtain ⟨y, hy, hr⟩ := Catalog.resolve_eq_ok.1 hout
    obtain rfl : x.standIn t = y := Option.some_inj.1 (standIn.symm.trans hy)
    rw [SourceEntry.resolution?_standIn, if_neg (hsub t former substitute x by_ entry)] at hr
    obtain ⟨place?, hends, hpoints⟩ := ih (Catalog.resolve_eq_ok.2 ⟨x, entry, hr⟩)
    exact ⟨place?, .replaced by_ hends, hpoints⟩

/-- A noted field `i` of `w` holds what pointers to its target `t` become. -/
theorem points_of_notes (hl : Linked h g tables low below s o o₁) (hapart : h.Apart o.buffer)
    (hsub : ∀ former ∈ s.replaced, ∀ substitute x, s.host.substitute? former = some substitute →
      s.catalog.get? substitute = some x → x.disposition ≠ .aliasToExisting)
    (hcopy : s.HasCopy w e target) (hholds : h.Holds w i t) (hnotes : g.Notes w i)
    (htable : i = 0 → tables e.kind target = none) :
    ∃ place?, EndsUp (s.finish o₂) a t place? ∧ a.Points (a.slot target i) place? := by
  obtain ⟨outcome, hout, hread, hmark⟩ := hl.assembled.wired_noted (by rw [hl.stage]; decide) hl.wired
    hcopy hnotes
  rw [hl.assembled.holds_word hcopy hholds htable] at hout
  rw [hl.slot_eq hfin]
  obtain ⟨x, hx, -⟩ := Catalog.resolve_eq_ok.1 hout
  exact hl.points_of_leads hfin hapart hsub (hl.assembled.fills.leads t x hx) hout hread
    fun hne => hmark.2 (Or.inr hne)

/-- A word `i` that is not noted, with no table in its place, stays as it is in the heap. -/
theorem plain_of_not_notes (hl : Linked h g tables low below s o o₁) (hcopy : s.HasCopy w e target)
    (hi : i < e.size / wordBytes) (hnotes : ¬g.Notes w i)
    (htable : i = 0 → tables e.kind target = none) : a.Plain (a.slot target i) (h.wordAt w i) := by
  obtain ⟨-, -, -, -, -, hsource, -⟩ := hl.assembled.copy hcopy
  obtain ⟨hread, hmark⟩ := hl.assembled.wired_other (by rw [hl.stage]; decide) hl.wired hcopy hi hnotes
  rw [copiedWord_eq htable, hsource, hl.assembled.fills.host, hl.assembled.cataloged.host] at hread
  have hunmarked : o₁.pointers.has (o.spot target + i) = false := by
    rw [Bool.eq_false_iff]
    intro hset
    obtain ⟨rfl, hstarts⟩ := hmark.1 hset
    unfold startsWithTable at hstarts
    rw [htable rfl] at hstarts
    cases hstarts
  rw [hl.slot_eq hfin]
  have hplain := hfin.plain hunmarked
  change a.Plain _ (o₁.buffer.words.read _) at hplain
  rw [hread] at hplain
  exact hplain

/-- The first word of a copy leads to the `table` of the copy. -/
theorem points_of_table (hl : Linked h g tables low below s o o₁) (hapart : h.Apart o.buffer)
    (hcopy : s.HasCopy w e target) {table : Addr .buffer} (htable : tables e.kind target = some table)
    (hlow : o.buffer.bottom.toNat < table.toNat)
    (hhigh : table.toNat ≤ o.buffer.bottom.toNat + low) :
    a.Points (a.slot target 0) (some (a.requestedPlace table)) ∧ ¬g.Notes w 0 := by
  have hpos := hl.assembled.size_pos hcopy
  have habove := hl.assembled.contents.above w e target hcopy
  obtain ⟨hplace, -, hhigh'⟩ := hl.assembled.place hcopy
  have htop := (hl.assembled.sound.filled o hl.assembled.output).arena.top_le_length
  rw [(hl.assembled.sound.filled o hl.assembled.output).length] at htop
  unfold wordBytes at *
  have hin : table.toNat < o.buffer.bottom.toNat + o.arena.top := by omega
  -- a noted first word would have to hold a heap object's address, which no table has
  have hnotes : ¬g.Notes w 0 := by
    intro hn
    obtain ⟨outcome, hout, -⟩ := hl.assembled.wired_noted (by rw [hl.stage]; decide) hl.wired hcopy hn
    unfold copiedWord at hout
    rw [htable] at hout
    obtain ⟨x, hx, -⟩ := Catalog.resolve_eq_ok.1 hout
    obtain ⟨-, hout⟩ := hl.assembled.heap.toNat_apart hapart (hl.assembled.object_of_entry hx)
    change table.toNat < _ ∨ _ ≤ table.toNat at hout
    omega
  have hne : table.word ≠ 0 := by
    intro hzero
    unfold Addr.toNat at hlow
    rw [hzero] at hlow
    exact absurd hlow (Nat.not_lt_zero _)
  obtain ⟨hread, hmark⟩ := hl.assembled.wired_other (by rw [hl.stage]; decide) hl.wired hcopy
    (by unfold wordBytes; exact hpos) hnotes
  unfold copiedWord at hread
  rw [htable] at hread
  have hstarts : startsWithTable tables e target = true := by
    unfold startsWithTable
    rw [htable]
    exact bne_iff_ne.2 hne
  rw [hl.slot_eq hfin]
  refine ⟨hfin.points_own (hmark.2 ⟨rfl, hstarts⟩) hread (hl.inUse (Nat.le_of_lt hlow) hin) ?_, hnotes⟩
  rw [hl.wired.room.bottom]
  exact hlow

/-- Word `i` below the copies stays and is not marked. -/
theorem plain_below (hl : Linked h g tables low below s o o₁) (hi : 8 * i < low) :
    a.Plain i (below i) := by
  obtain ⟨hread, hmark⟩ := hl.assembled.wired_below (by rw [hl.stage]; decide) hl.wired hi
  have hplain := hfin.plain hmark
  change a.Plain _ (o₁.buffer.words.read _) at hplain
  rw [hread] at hplain
  exact hplain

/-- A word `i` that is marked belongs to a copy. -/
theorem copy_of_marked (hl : Linked h g tables low below s o o₁) (hmark : a.pointers.has i = true) :
    ∃ w e target j, s.HasCopy w e target ∧ j < e.size / wordBytes ∧ i = a.slot target j := by
  have hrank : 4 ≤ s.stage.rank := by rw [hl.stage]; decide
  rw [hfin.marks, Bool.and_eq_true] at hmark
  have hwired := hmark.1
  change o₁.pointers.has i = true at hwired
  rw [hl.wired.marks, Bool.or_eq_true, Bool.and_eq_true, decide_eq_true_eq] at hwired
  rcases hwired with hset | ⟨hslot, -⟩
  · obtain ⟨w, e, target, hcopy, rfl, -⟩ := (hl.assembled.contents.marks i).1 hset
    exact ⟨w, e, target, 0, hcopy, hl.assembled.size_pos hcopy, by rw [hl.slot_eq hfin]; rfl⟩
  · obtain ⟨w, e, target, j, hcopy, hnotes, rfl⟩ := (hl.assembled.mem_wireSlots hrank).1 hslot
    exact ⟨w, e, target, j, hcopy, hl.assembled.noted_lt hcopy hnotes, by rw [hl.slot_eq hfin]⟩

end Linked

namespace Session

/-- The archive `a` is the image of the heap `h`, with tables at `placed`. -/
structure Faithful (h : Heap) (s : Session) (placed : List (DispatchTemplate × Addr .buffer))
    (a : Archive) : Prop where
  copied : ∀ w e, s.catalog.get? w = some e → e.isCopied = true → e.isAlias = false →
    ∃ target, s.HasCopy w e target
  mutable : ∀ w e target, s.HasCopy w e target → e.readOnly = false →
    a.mutable.base ≤ target.toNat - a.buffer.bottom.toNat ∧
      target.toNat - a.buffer.bottom.toNat + e.size ≤ a.mutable.top
  readOnly : ∀ w e target, s.HasCopy w e target → e.readOnly = true →
    a.readOnly.base ≤ target.toNat - a.buffer.bottom.toNat ∧
      target.toNat - a.buffer.bottom.toNat + e.size ≤ a.readOnly.top
  /-- A field with the address of an object holds where the object ended up. -/
  pointers : ∀ w e target i t, s.HasCopy w e target → h.Holds w i t →
    ∃ place?, s.EndsUp a t place? ∧ a.Points (a.slot target i) place?
  /-- An object whose kind has a template starts with the last table for the kind. -/
  headers : ∀ w e target table, s.HasCopy w e target →
    DispatchTables.last? e.kind placed = some table →
      a.Points (a.slot target 0) (some (a.requestedPlace table))
  /-- Any other word is that of the heap. -/
  others : ∀ w e target i, s.HasCopy w e target → i < e.size / wordBytes → (∀ t, ¬h.Holds w i t) →
    (i = 0 → DispatchTables.last? e.kind placed = none) → a.Plain (a.slot target i) (h.wordAt w i)
  /-- The tables hold their entries as they are. -/
  tables : ∀ t table, (t, table) ∈ placed → ∀ i x, t.entries[i]? = some x →
    a.Plain (a.slot table i) x
  /-- Nothing else is marked. -/
  marks : ∀ i, a.pointers.has i = true →
    ∃ w e target j, s.HasCopy w e target ∧ j < e.size / wordBytes ∧ i = a.slot target j

/-- What building leaves in `s'` is the image of the heap. -/
theorem faithful_of_builds {h : Heap} {templates : List DispatchTemplate} {s' : Session}
    (hbuilds : Builds h templates s') (hapart : ∀ o, s'.output? = some o → h.Apart o.buffer)
    (hsub : ∀ former ∈ s'.replaced, ∀ substitute x, s'.host.substitute? former = some substitute →
      s'.catalog.get? substitute = some x → x.disposition ≠ .aliasToExisting) :
    ∃ a placed, s'.archive? = some a ∧ placed.map (·.1) = templates ∧ Faithful h s' placed a := by
  obtain ⟨g, placed, ot, s, o, o₁, o₂, hsettled, hmap, hholds, hbottom, hl, hlanded, rfl⟩ := hbuilds
  obtain ⟨a, harchive, hfin⟩ := finished_of_landed hl.sound hlanded
  have hbuffer : o.buffer.bottom = ot.buffer.bottom := by
    rw [hbottom, hl.assembled.contents.bottom, hl.assembled.fills.reservations]
  have hlength : o₂.buffer.length = o.buffer.length := hlanded.length.trans hl.wired.room.length
  have hbase : o₂.buffer.bottom = o.buffer.bottom := hlanded.bottom.trans hl.wired.room.bottom
  have hapart₀ : h.Apart o.buffer := by
    have := hapart o₂ rfl
    unfold Heap.Apart at *
    rwa [hbase, hlength] at this
  have hheader : ∀ w e target table, s.HasCopy w e target →
      DispatchTables.last? e.kind placed = some table →
        a.Points (a.slot target 0) (some (a.requestedPlace table)) ∧ ¬g.Notes w 0 := by
    intro w e target table hcopy hlast
    obtain ⟨t, hmem, -⟩ := DispatchTables.mem_of_last? hlast
    obtain ⟨hplace, hlow, hhigh, -⟩ := hholds _ hmem
    refine hl.points_of_table hfin hapart₀ hcopy
      ((DispatchTables.provider_ofPlaced ..).trans hlast) ?_ ?_
    · rw [hbuffer]
      unfold bottomPadding wordBytes at *
      dsimp only at *
      omega
    · rw [hbuffer]
      unfold wordBytes at *
      dsimp only at *
      omega
  -- copies, the two regions, pointer fields, headers, plain words, tables, and no other marks
  refine ⟨a, placed, harchive, hmap, fun w e he hcopied hplain => ?_, fun w e target hcopy hkind => ?_,
    fun w e target hcopy hkind => ?_, fun w e target i t hcopy hholds => ?_,
    fun w e target table hcopy hlast => (hheader w e target table hcopy hlast).1,
    fun w e target i hcopy hi hnot hlast => ?_, fun t table hmem i x hx => ?_,
    fun i hi => ?_⟩
  · obtain ⟨x, target, hcopy, -⟩ := hl.assembled.hasCopy
      (Assembled.rank_le (by rw [hl.stage]; decide) (.ofReadOnly e.readOnly))
      (hl.assembled.sound.books.enlisted w e he hcopied hplain)
    obtain rfl : e = x := Option.some_inj.1 (Eq.trans he.symm hcopy.1)
    exact ⟨target, hcopy⟩
  · have hin := hl.within hfin hlanded hcopy
    rw [hkind] at hin
    rw [hfin.mutable]
    exact hin
  · have hin := hl.within hfin hlanded hcopy
    rw [hkind] at hin
    rw [hfin.readOnly]
    exact hin
  · obtain ⟨-, -, -, -, -, -, hcopied, -⟩ := hl.assembled.copy hcopy
    have hnotes : g.Notes w i := hsettled w _ (hl.assembled.fills.own w e hcopy.1 hcopy.2.1)
      hcopied i t hholds
    refine hl.points_of_notes hfin hapart₀ hsub hcopy hholds hnotes ?_
    rintro rfl
    cases hlast : DispatchTables.last? e.kind placed with
    | none => exact (DispatchTables.provider_ofPlaced ..).trans hlast
    | some table => exact absurd hnotes (hheader w e target table hcopy hlast).2
  · refine hl.plain_of_not_notes hfin hcopy hi (fun hnotes => ?_) fun hzero =>
      (DispatchTables.provider_ofPlaced ..).trans (hlast hzero)
    obtain ⟨t, hholds, -⟩ := hl.assembled.grounded w i hnotes
    exact hnot t hholds
  · obtain ⟨hplace, -, hhigh, hentries⟩ := hholds (t, table) hmem
    have hlt := (List.getElem?_eq_some_iff.1 hx).1
    have hslot : a.slot table i = ot.spot table + i := by
      unfold Archive.slot Output.spot
      rw [hfin.bottom, hl.wired.room.bottom, hbuffer]
    rw [hslot, ← hentries i x hx]
    exact hl.plain_below hfin (by unfold wordBytes at *; dsimp only at *; omega)
  · obtain ⟨w, e, target, j, hcopy⟩ := hl.copy_of_marked hfin hi
    exact ⟨w, e, target, j, hcopy⟩

/-- Whatever the heap `h`, the `roots`, the `advisories` and the `templates` are: if building
    succeeds, in a buffer apart from the heap, and no replaced object is replaced by one of the
    dependency, then the archive is the image of the heap. -/
theorem build_faithful {h : Heap} (made : h.Made) {reservations : Reservations} {settings : Settings}
    {mapped? : Option (AddrRange .mapped)} {alive : Bool} {s : Session}
    (hbegin : begin h.toHost reservations settings mapped? alive = .ok s) (roots : List Word)
    (advisories : Advisories) (templates : List DispatchTemplate) {s' : Session}
    (hs' : ((build roots advisories templates (pure ())).perform s).2.session = s')
    (hok : ((build roots advisories templates (pure ())).perform s).1 = .ok ())
    (hapart : ∀ o, s'.output? = some o → h.Apart o.buffer)
    (hsub : ∀ former ∈ s'.replaced, ∀ substitute e, s'.host.substitute? former = some substitute →
      s'.catalog.get? substitute = some e → e.disposition ≠ .aliasToExisting) :
    ∃ a placed, s'.archive? = some a ∧ placed.map (·.1) = templates ∧ Faithful h s' placed a := by
  have hs := sound_begin hbegin
  obtain ⟨-, d?, -, rfl⟩ := begin_eq_ok hbegin
  obtain ⟨hcataloged, hgrounded, hsettled⟩ := cataloged_fresh h reservations settings d?
  subst hs'
  obtain ⟨_, -, hbuilds⟩ | ⟨f, herror, -⟩ := (triple_build made.sound hs hcataloged hgrounded hsettled
    roots advisories templates).perform rfl
  · exact faithful_of_builds hbuilds hapart hsub
  · exact nomatch herror.symm.trans hok

/-- A heap whose procedure refers to an object, to one that was replaced by it, to one that is never
    archived, and to one of the dependency. -/
def mixedHeap : Heap :=
  (Heap.create 0x100000000000 2).afterCalls
    [.allocInDependency .other 1, .alloc .procedure 5 none, .alloc .other 1 none, .alloc .other 1 none,
      .alloc .profileData 1 none, .setPointer 0x100000000010 1 (some 0x100000000038) none,
      .setPointer 0x100000000010 2 (some 0x100000000040) none,
      .setPointer 0x100000000010 3 (some 0x100000000048) none,
      .setPointer 0x100000000010 4 (some 0x100000000000) none, .setWord 0x100000000038 0 7,
      .substitute 0x100000000040 0x100000000038]

theorem mixedHeap_made : mixedHeap.Made := (Heap.Made.create (by decide) (by decide)).afterCalls _

/-- A session over that heap, as it begins. -/
def mixedBegun : Except BuildError Session :=
  begin mixedHeap.toHost ⟨⟨0x20000⟩, 0x1000, room_fits⟩ ⟨0x8000, 8, 0, false⟩
    mixedHeap.dependencyRange? false

/-- The session over that heap. -/
def mixedSession : Session := mixedBegun.toOption.get (by decide +kernel)

/-- The session once the archive is built. -/
def mixedBuilt : Session :=
  ((build [0x100000000010] ⟨0, 0, 16⟩ [⟨.procedure, [11, 12]⟩] (pure ())).perform mixedSession).2.session

/-- The archive of that heap. -/
theorem build_faithful_mixed : ∃ a placed, mixedBuilt.archive? = some a ∧
    placed.map (·.1) = [⟨.procedure, [11, 12]⟩] ∧ Faithful mixedHeap mixedBuilt placed a := by
  have hbegin : mixedBegun = .ok mixedSession := eq_ok_of_toOption (Option.some_get _).symm
  have hok : ((build [0x100000000010] ⟨0, 0, 16⟩ [⟨.procedure, [11, 12]⟩] (pure ())).perform
      mixedSession).1.toOption = some () := by decide +kernel
  have hplace : mixedBuilt.output?.map (fun o => (o.buffer.bottom.toNat, o.buffer.length)) =
      some (0x20000, 104) := by decide +kernel
  have hreplaced : mixedBuilt.replaced = #[0x100000000040] := by decide +kernel
  have hsubstitute : mixedBuilt.host.substitute? 0x100000000040 = some 0x100000000038 := by decide +kernel
  have hfate : (mixedBuilt.catalog.get? 0x100000000038).map (·.disposition) = some .copy := by
    decide +kernel
  refine build_faithful mixedHeap_made hbegin [0x100000000010] ⟨0, 0, 16⟩
    [⟨.procedure, [11, 12]⟩] (by rw [mixedBuilt]) (eq_ok_of_toOption hok) (fun o ho => ?_)
    fun former hformer substitute e hsub he => ?_
  · rw [show mixedBuilt.output? = some o from ho, Option.map_some, Option.some_inj] at hplace
    obtain ⟨hbottom, hlength⟩ := Prod.mk.inj hplace
    left
    rw [hbottom, hlength]
    decide +kernel
  · obtain rfl : former = 0x100000000040 := by
      rw [show mixedBuilt.replaced = _ from hreplaced] at hformer
      simpa using hformer
    obtain rfl : 0x100000000038 = substitute := Option.some_inj.1 (hsubstitute.symm.trans hsub)
    rw [show mixedBuilt.catalog.get? 0x100000000038 = some e from he, Option.map_some,
      Option.some_inj] at hfate
    rw [hfate]
    nofun

end Session

end SnapshotArchive
