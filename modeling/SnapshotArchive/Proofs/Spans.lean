import Mathlib.Tactic.Common
import SnapshotArchive.Proofs.Changes
import SnapshotArchive.Proofs.MarkedWords
import SnapshotArchive.Session.Offsets

/-!
The bytes of copies. Whatever is called on a session over a heap, also where calls fail half-way, each
copied object has bytes of its own: apart from those of the others, from the bottom padding and from all
that was allocated by hand. So each output address belongs to one object, and it is never changed.
-/

namespace SnapshotArchive

open SessionM

/-- Addresses from `start` up to, but without, `stop`. -/
structure Span where
  start : Nat
  stop : Nat
  deriving DecidableEq

/-- One of the spans `p` and `q` ends before the other starts. -/
def Span.Apart (p q : Span) : Prop := p.stop ≤ q.start ∨ q.stop ≤ p.start

theorem Span.Apart.symm {p q : Span} (h : p.Apart q) : q.Apart p := Or.symm h

/-- The bytes of the copy of `e` at `target`, its lookup record included. -/
def SourceEntry.span (e : SourceEntry) (target : Addr .buffer) : Span :=
  ⟨target.toNat - e.kind.lead, target.toNat + e.size⟩

/-- The copy of `e` at `target` lies in the region of the object, above the bottom padding. -/
structure Output.Houses (o : Output) (e : SourceEntry) (target : Addr .buffer) : Prop where
  padding : o.buffer.bottom.toNat + bottomPadding + e.kind.lead ≤ target.toNat
  base : o.buffer.bottom.toNat + (o.arena.region (.ofReadOnly e.readOnly)).base + e.kind.lead ≤ target.toNat
  top : target.toNat + e.size ≤ o.buffer.bottom.toNat + (o.arena.region (.ofReadOnly e.readOnly)).top

/-- A region may grow from `o` to `o'`, as long as it starts where it did. -/
theorem Output.Houses.mono {o o' : Output} {e : SourceEntry} {target : Addr .buffer} (h : o.Houses e target)
    (hbottom : o'.buffer.bottom = o.buffer.bottom)
    (hbase : (o'.arena.region (.ofReadOnly e.readOnly)).base = (o.arena.region (.ofReadOnly e.readOnly)).base)
    (htop : (o.arena.region (.ofReadOnly e.readOnly)).top ≤ (o'.arena.region (.ofReadOnly e.readOnly)).top) :
    o'.Houses e target := by
  obtain ⟨hp, hb, ht⟩ := h
  rw [← hbottom] at hp hb ht
  exact ⟨hp, by rw [hbase]; exact hb, by omega⟩

theorem Output.Houses.sameRoom {o o' : Output} {e : SourceEntry} {target : Addr .buffer}
    (h : o.Houses e target) (hroom : o.SameRoom o') : o'.Houses e target :=
  h.mono hroom.bottom (by rw [hroom.arena]) (by rw [hroom.arena])

namespace Call

/-- The block that a call `c` allocates by hand and answers. -/
def block? (c : Call) (s : Session) : Option Span :=
  match c with
  | allocateOther n =>
    ((SessionM.allocateOther n).perform s).1.toOption.map fun a => ⟨a.toNat, a.toNat + n⟩
  | _ => none

end Call

namespace Session

/-- The blocks that some calls on `s` allocate by hand and answer. -/
def blocks (s : Session) : List Call → List Span
  | [] => []
  | c :: calls => (c.block? s).toList ++ (c.after s).blocks calls

/-- The copies of `s` have bytes of their own, apart from the `blocks` that were allocated by
    hand. -/
structure Spread (blocks : List Span) (s : Session) : Prop where
  claims : ∀ a w, s.catalog.sourceOf? a = some w ↔ ∃ e, s.HasCopy w e a
  sized : ∀ w e, s.catalog.get? w = some e → 0 < e.size
  houses : ∀ o, s.output? = some o → ∀ w e a, s.HasCopy w e a → o.Houses e a
  ascending : ∀ kind, (s.books.sources kind).Pairwise fun v w => ∀ e a e' a', s.HasCopy v e a →
    s.HasCopy w e' a' → (e.span a).stop ≤ (e'.span a').start
  below : ∀ b ∈ blocks, ∃ o, s.output? = some o ∧ b.stop ≤ o.buffer.bottom.toNat + o.arena.top
  apart : ∀ b ∈ blocks, ∀ w e a, s.HasCopy w e a → b.Apart (e.span a)

variable {s s' : Session} {blocks : List Span} {w : Word} {e : SourceEntry} {a : Addr .buffer} {o : Output}

/-- Copies lie in the buffer. -/
theorem HasCopy.output (h : s.HasCopy w e a) (hs : s.Sound) : ∃ o, s.output? = some o := by
  refine Option.ne_none_iff_exists'.1 fun hnone => (hs.bare hnone).2 w ⟨e, h.1, ?_⟩
  rw [h.2.2]
  rfl

theorem HasCopy.listed (h : s.HasCopy w e a) (hs : s.Sound) :
    w ∈ s.books.sources (.ofReadOnly e.readOnly) :=
  hs.books.enlisted w e h.1 (hs.books.copied w e h.1 (by rw [h.2.2]; rfl)) h.2.1

/-- The copy at `a` ends at the top of the arena or below it. -/
theorem HasCopy.le_top (h : s.HasCopy w e a) (hs : s.Sound) (ho : s.output? = some o) :
    a.toNat + e.size ≤ o.buffer.bottom.toNat + o.arena.top := by
  obtain ⟨offset, hplace, -, -, hhigh⟩ := (hs.filled o ho).layout.inside w e a h.1 h.2.2
  omega

/-- The object of `e` is copied to `target`, to bytes above all that was allocated in `o`. -/
structure CopiedOnTop (s s' : Session) (e : SourceEntry) (target : Addr .buffer) (o o' : Output) : Prop where
  before : s.output? = some o
  after : s'.output? = some o'
  found : s.catalog.get? e.source = some e
  fresh : e.output? = none
  claims : ∀ a, s'.catalog.sourceOf? a = if target = a then some e.source else s.catalog.sourceOf? a
  copies : ∀ v x a, s'.HasCopy v x a ↔
    s.HasCopy v x a ∨ v = e.source ∧ x = { e with output? := some target } ∧ a = target
  sizes : ∀ v x, s'.catalog.get? v = some x → ∃ y, s.catalog.get? v = some y ∧ x.size = y.size
  lists : ∀ kind, s'.books.sources kind = s.books.sources kind
  grows : o.Grows o'
  above : o.buffer.bottom.toNat + o.arena.top ≤ (e.span target).start
  houses : o'.Houses { e with output? := some target } target

theorem CopiedOnTop.ofCopy {tables : TableProvider} {kind : RegionKind} {rest : List Word}
    (hcopying : Copying kind s.stage (w :: rest) s) (hstep : CopyStep tables w s s')
    (hplace : PlaceStep w s s') : ∃ e target o o', CopiedOnTop s s' e target o o' := by
  have hs := hcopying.sound
  obtain ⟨e, o, o', offset, target, catalog, stats, ho, he, -, hfresh, hdone, hget, rfl⟩ := hstep
  obtain ⟨e₁, o₁, target₁, he₁, ho₁, hclear, hplaced⟩ := hplace
  obtain rfl : e = e₁ := Option.some_inj.1 (he.symm.trans he₁)
  obtain rfl : o = o₁ := Option.some_inj.1 (ho.symm.trans ho₁)
  obtain rfl : e.source = w := hs.books.keyed w e he
  -- the place that the catalog notes is where the words went
  obtain rfl : target = target₁ := by
    obtain ⟨x, hx, -, -, hget₁⟩ := place_eq_ok hplaced
    obtain rfl : e = x := Option.some_inj.1 (he.symm.trans hx)
    have hnew := (hget e.source).symm.trans (hget₁ e.source)
    rw [if_pos rfl, if_pos rfl, Option.some_inj] at hnew
    exact Option.some_inj.1 (congrArg SourceEntry.output? hnew)
  obtain ⟨done, hsplit, -⟩ := hcopying.done
  obtain ⟨x, hx, -, hplain, hkind⟩ := hs.books.listed kind e.source (by rw [hsplit]; simp)
  obtain rfl : e = x := Option.some_inj.1 (he.symm.trans hx)
  have hcurrent : o.arena.current = kind := by
    obtain ⟨o₂, ho₂, hc⟩ := hcopying.current
    obtain rfl : o = o₂ := Option.some_inj.1 (ho.symm.trans ho₂)
    exact hc
  have hf := hs.filled o ho
  have hpadding := hf.arena.padding_le_top
  have hbase := hf.arena.region_base_le_top kind
  have htop : o.arena.top = (o.arena.region kind).top := by rw [← hcurrent]; rfl
  have hclear : o.buffer.bottom.toNat + o.arena.top + e.kind.lead ≤ target.toNat := hclear
  have hend : target.toNat + e.size ≤ o.buffer.bottom.toNat + o'.arena.top := by
    have := hdone.high
    have := hdone.place
    omega
  refine ⟨e, target, o, o', ho, rfl, he, hfresh, Catalog.sourceOf?_place hplaced,
    fun v x b => hasCopy_copied he hfresh hplain hget, fun v x hx => ?_, fun k => by cases k <;> rfl,
    hdone.grows, Nat.le_sub_of_add_le hclear, ?_⟩
  · rw [hget] at hx
    split at hx
    · rename_i hv
      cases hx
      exact ⟨e, hv ▸ he, rfl⟩
    · exact ⟨x, hx, rfl⟩
  · obtain ⟨t, hlow, -, -, harena⟩ := hdone.grows.arena
    refine ⟨?_, ?_, ?_⟩ <;> rw [hdone.grows.bottom] <;> dsimp only
    · omega
    · rw [harena, Arena.base_advance, hkind]
      omega
    · refine Nat.le_trans hend (Nat.add_le_add_left ?_ _)
      rw [harena, Arena.top_advance, hkind, Arena.region_advance, if_pos hcurrent]

namespace Spread

/-- A session `s` without copies. -/
theorem ofBare (hnone : s.output? = none) (hs : s.Sound) (hclaims : ∀ a, s.catalog.sourceOf? a = none)
    (hsized : ∀ w e, s.catalog.get? w = some e → 0 < e.size) : Spread [] s := by
  have hcopy {w : Word} {e : SourceEntry} {a : Addr .buffer} (hc : s.HasCopy w e a) : False := by
    obtain ⟨o, ho⟩ := hc.output hs
    exact nomatch hnone.symm.trans ho
  exact ⟨fun a w => ⟨fun h => (nomatch (hclaims a).symm.trans h), fun ⟨_, hc⟩ => (hcopy hc).elim⟩, hsized,
    fun _ _ _ _ _ hc => (hcopy hc).elim,
    fun _ => List.pairwise_of_forall fun _ _ _ _ _ _ hc => (hcopy hc).elim, nofun, nofun⟩

/-- Before the buffer is reserved there is nothing in it, so there are no `blocks`. -/
theorem bare (h : Spread blocks s) (hnone : s.output? = none) (hs : s.Sound) :
    blocks = [] ∧ ∀ a, s.catalog.sourceOf? a = none := by
  refine ⟨List.eq_nil_iff_forall_not_mem.2 fun b hb => ?_, fun a => ?_⟩
  · obtain ⟨o, ho, -⟩ := h.below b hb
    exact nomatch hnone.symm.trans ho
  · refine Option.eq_none_iff_forall_ne_some.2 fun w hw => ?_
    obtain ⟨e, hc⟩ := (h.claims a w).1 hw
    obtain ⟨o, ho⟩ := hc.output hs
    exact nomatch hnone.symm.trans ho

/-- Entries may be added to `s` before the buffer is reserved. -/
theorem early (h : Spread blocks s) (hnone : s.output? = none) (hs : s.Sound) (hs' : s'.Sound)
    (hnone' : s'.output? = none) (hclaims : ∀ a, s'.catalog.sourceOf? a = s.catalog.sourceOf? a)
    (hsized : ∀ w e, s'.catalog.get? w = some e → 0 < e.size) : Spread blocks s' := by
  obtain ⟨rfl, hfree⟩ := h.bare hnone hs
  exact ofBare hnone' hs' (fun a => (hclaims a).trans (hfree a)) hsized

/-- The copies stay where they are in `s'`, and at most the buffer fills up above them. -/
theorem frame (h : Spread blocks s) (hs : s.Sound) (hcopy : ∀ w e a, s'.HasCopy w e a ↔ s.HasCopy w e a)
    (hclaims : ∀ a, s'.catalog.sourceOf? a = s.catalog.sourceOf? a)
    (hsized : ∀ w e, s'.catalog.get? w = some e → 0 < e.size)
    (hlists : ∀ kind, s'.books.sources kind = s.books.sources kind)
    (hroom : ∀ o, s.output? = some o → ∃ o', s'.output? = some o' ∧ o'.buffer.bottom = o.buffer.bottom ∧
      o.arena.top ≤ o'.arena.top ∧ ∀ w e a, s.HasCopy w e a → o.Houses e a → o'.Houses e a) :
    Spread blocks s' where
  claims a w := by simp only [hclaims, hcopy, h.claims]
  sized := hsized
  houses o' ho' w e a hc := by
    have hc₀ := (hcopy w e a).1 hc
    obtain ⟨o, ho⟩ := hc₀.output hs
    obtain ⟨o'', ho'', -, -, hkeeps⟩ := hroom o ho
    obtain rfl : o' = o'' := Option.some_inj.1 (ho'.symm.trans ho'')
    exact hkeeps w e a hc₀ (h.houses o ho w e a hc₀)
  ascending kind := by simpa only [hlists, hcopy] using h.ascending kind
  below b hb := by
    obtain ⟨o, ho, hle⟩ := h.below b hb
    obtain ⟨o', ho', hbottom, htop, -⟩ := hroom o ho
    exact ⟨o', ho', by rw [hbottom]; omega⟩
  apart b hb w e a hc := h.apart b hb w e a ((hcopy w e a).1 hc)

/-- Only the output changes. -/
theorem withOutput (h : Spread blocks s) (hs : s.Sound) (hcatalog : s'.catalog = s.catalog)
    (hbooks : s'.books = s.books)
    (hroom : ∀ o, s.output? = some o → ∃ o', s'.output? = some o' ∧ o'.buffer.bottom = o.buffer.bottom ∧
      o.arena.top ≤ o'.arena.top ∧ ∀ w e a, s.HasCopy w e a → o.Houses e a → o'.Houses e a) :
    Spread blocks s' :=
  h.frame hs (fun w e a => by rw [HasCopy, hcatalog]; rfl) (fun a => by rw [hcatalog])
    (by rw [hcatalog]; exact h.sized) (fun kind => by rw [hbooks]) hroom

/-- The contents of the buffer do not count. -/
theorem touches (h : Spread blocks s) (hs : s.Sound) (htouch : Touches s s') : Spread blocks s' := by
  rcases htouch with rfl | ⟨o, o', ho, hroom, rfl⟩
  · exact h
  · refine h.withOutput hs rfl rfl fun o₁ ho₁ => ?_
    obtain rfl : o = o₁ := Option.some_inj.1 (ho.symm.trans ho₁)
    exact ⟨o', rfl, hroom.bottom, by rw [hroom.arena], fun _ _ _ _ hhouse => hhouse.sameRoom hroom⟩

/-- What is allocated in `o'` lies above all copies. -/
theorem grows_room {o' : Output} (hgrows : o.Grows o') (hhouse : o.Houses e a) : o'.Houses e a := by
  obtain ⟨t, hlow, -, -, harena⟩ := hgrows.arena
  exact hhouse.mono hgrows.bottom (by rw [harena, Arena.base_advance])
    (by rw [harena]; exact Arena.top_le_advance hlow _)

/-- The object of `e` gets bytes of its own at `target`, above all that is allocated. -/
theorem onTop {target : Addr .buffer} {o o' : Output} (h : Spread blocks s) (hs : s.Sound)
    (htop : CopiedOnTop s s' e target o o') : Spread blocks s' := by
  have hold : ∀ v x b, s.HasCopy v x b → (x.span b).stop ≤ (e.span target).start := fun v x b hc =>
    (hc.le_top hs htop.before).trans htop.above
  refine ⟨fun b v => ?_, fun v x hx => ?_, fun o₂ ho₂ v x b hc => ?_, fun k => ?_, fun b hb => ?_,
    fun b hb v x c hc => ?_⟩
  · rw [htop.claims]
    simp only [htop.copies]
    split
    · rename_i hb
      subst hb
      refine ⟨fun hv => ⟨_, .inr ⟨(Option.some_inj.1 hv).symm, rfl, rfl⟩⟩, ?_⟩
      rintro ⟨x, hc | ⟨rfl, -, -⟩⟩
      · have hsize := h.sized v x hc.1
        have hstop : target.toNat + x.size ≤ target.toNat - e.kind.lead := hold v x _ hc
        omega
      · rfl
    · rename_i hb
      rw [h.claims]
      exact ⟨fun ⟨x, hc⟩ => ⟨x, .inl hc⟩,
        fun ⟨x, hc⟩ => ⟨x, hc.resolve_right fun hnew => hb hnew.2.2.symm⟩⟩
  · obtain ⟨y, hy, hsize⟩ := htop.sizes v x hx
    rw [hsize]
    exact h.sized v y hy
  · obtain rfl : o' = o₂ := Option.some_inj.1 (htop.after.symm.trans ho₂)
    rcases (htop.copies v x b).1 hc with hc | ⟨rfl, rfl, rfl⟩
    · exact grows_room htop.grows (h.houses o htop.before v x b hc)
    · exact htop.houses
  · rw [htop.lists]
    have hlayout := (hs.filled o htop.before).layout
    refine ((h.ascending k).and ((hlayout.inOrder k).and (hs.books.nodup k))).imp ?_
    rintro v u ⟨hasc, horder, hne⟩ x b x' b' hc hc'
    rcases (htop.copies v x b).1 hc with hc | ⟨rfl, rfl, rfl⟩ <;>
      rcases (htop.copies u x' b').1 hc' with hc' | ⟨rfl, rfl, rfl⟩
    · exact hasc x b x' b' hc hc'
    · exact hold v x b hc
    · -- an object that comes later in the list was not copied before this one
      obtain ⟨y, hy, hout⟩ := horder ⟨x', hc'.1, by rw [hc'.2.2]; rfl⟩
      obtain rfl : e = y := Option.some_inj.1 (htop.found.symm.trans hy)
      rw [htop.fresh] at hout
      cases hout
    · exact absurd rfl hne
  · obtain ⟨o₂, ho₂, hle⟩ := h.below b hb
    obtain rfl : o = o₂ := Option.some_inj.1 (htop.before.symm.trans ho₂)
    refine ⟨o', htop.after, hle.trans ?_⟩
    rw [htop.grows.bottom]
    exact Nat.add_le_add_left htop.grows.top_le _
  · rcases (htop.copies v x c).1 hc with hc | ⟨rfl, rfl, rfl⟩
    · exact h.apart b hb v x c hc
    · obtain ⟨o₂, ho₂, hle⟩ := h.below b hb
      obtain rfl : o = o₂ := Option.some_inj.1 (htop.before.symm.trans ho₂)
      exact .inl (hle.trans htop.above)

/-- A copy of `w` that fails takes bytes at most. -/
theorem halted {tables : TableProvider} {f : Failure} (h : Spread blocks s) (hs : s.Sound)
    (hhalt : CopyHalt tables w s f s') (hplace : PlaceHalt w s s') : Spread blocks s' := by
  have hclaims : ∀ a, s'.catalog.sourceOf? a = s.catalog.sourceOf? a := by
    rcases hplace with hsame | ⟨e, o, target, v, he, ho, hclear, hrefused⟩
    · intro a
      rw [hsame]
    · rw [Catalog.place_refused hrefused]
      · exact fun _ => rfl
      refine Option.eq_none_iff_forall_ne_some.2 fun v hv => ?_
      obtain ⟨x, hc⟩ := (h.claims target v).1 hv
      have := hc.le_top hs ho
      have := h.sized v x hc.1
      unfold Output.Clears at hclear
      omega
  rcases hhalt with ⟨rfl, -⟩ | ⟨e, o, -, ho, o', catalog, hstop, hget, rfl⟩
  · exact h
  · refine h.frame hs (fun v x b => by rw [HasCopy, hget]; rfl) hclaims
      (fun v x hx => h.sized v x ((hget v).symm.trans hx)) (fun kind => by cases kind <;> rfl)
      fun o₁ ho₁ => ?_
    obtain rfl : o = o₁ := Option.some_inj.1 (ho.symm.trans ho₁)
    exact ⟨o', rfl, hstop.grows.bottom, hstop.grows.top_le, fun _ _ _ _ => grows_room hstop.grows⟩

/-- No read-only object is copied before its region is begun. -/
theorem switched (h : Spread blocks s) (hs : s.Sound) (hstep : SwitchStep s s') : Spread blocks s' := by
  obtain ⟨o, arena, ho, harena, rfl⟩ := hstep
  have hf := hs.filled o ho
  obtain ⟨hc, hc', ha', -, -, htop, -⟩ := Arena.startReadOnly_eq_ok hf.arena harena
  refine h.withOutput hs rfl rfl fun o₁ ho₁ => ?_
  obtain rfl : o = o₁ := Option.some_inj.1 (ho.symm.trans ho₁)
  refine ⟨_, rfl, rfl, ?_, fun v x b hcopy hhouse => ?_⟩
  · refine Nat.le_trans ?_ (ha'.region_top_le hc' .mutable)
    unfold Arena.top Arena.currentRegion
    rw [hc]
    exact htop
  · have hlisted := hcopy.listed hs
    cases hkind : RegionKind.ofReadOnly x.readOnly with
    | mutable =>
      refine hhouse.mono rfl ?_ ?_ <;> rw [hkind]
      · exact ha'.base.trans hf.arena.base.symm
      · exact htop
    | readOnly =>
      rw [hkind] at hlisted
      exact absurd ⟨x, hcopy.1, by rw [hcopy.2.2]; rfl⟩ (hf.layout.waiting hc v hlisted)

theorem aliased {former substitute : Word} (h : Spread blocks s) (hs : s.Sound)
    (hstep : AliasStep former substitute s s') : Spread blocks s' := by
  refine h.frame hs (fun v x b => hstep.hasCopy) (fun b => ?_) (fun v x hx => ?_) (fun kind => ?_)
    fun o ho => ⟨o, by rw [hstep.stage.2, ho], rfl, Nat.le_refl _, fun _ _ _ _ => id⟩
  · obtain ⟨_, _, -, -, -, rfl⟩ := hstep
    rfl
  · rcases hstep.get?_new hx with hold | ⟨-, y, hy, rfl⟩
    · exact h.sized v x hold
    · exact h.sized substitute y hy
  · obtain ⟨_, _, -, -, -, rfl⟩ := hstep
    cases kind <;> rfl

/-- The final pass only packs the read-only region. -/
theorem packed {o' : Output} (h : Spread blocks s) (hs : s.Sound) (hrank : 4 ≤ s.stage.rank)
    (ho : s.output? = some o) (ho' : s'.output? = some o') (harena : o'.arena = o.arena.pack)
    (hbottom : o'.buffer.bottom = o.buffer.bottom) (hcatalog : s'.catalog = s.catalog)
    (hbooks : s'.books = s.books) : Spread blocks s' := by
  have hf := hs.filled o ho
  refine h.withOutput hs hcatalog hbooks fun o₁ ho₁ => ?_
  obtain rfl : o = o₁ := Option.some_inj.1 (ho.symm.trans ho₁)
  refine ⟨o', ho', hbottom, by rw [harena]; exact hf.arena.top_le_pack (hf.switched hrank),
    fun _ x _ _ hhouse => ?_⟩
  obtain ⟨hbase, htop⟩ := hf.arena.region_pack (hf.switched hrank) (.ofReadOnly x.readOnly)
  exact hhouse.mono hbottom (by rw [harena, hbase]) (by rw [harena]; exact htop)

/-- One more block `b`, below the top of the arena and apart from the copies. -/
theorem withBlock (h : Spread blocks s) {b : Span}
    (hbelow : ∃ o, s.output? = some o ∧ b.stop ≤ o.buffer.bottom.toNat + o.arena.top)
    (hapart : ∀ w e a, s.HasCopy w e a → b.Apart (e.span a)) : Spread (blocks ++ [b]) s where
  claims := h.claims
  sized := h.sized
  houses := h.houses
  ascending := h.ascending
  below b' hb' := by
    rcases List.mem_append.1 hb' with hb' | hb'
    · exact h.below b' hb'
    · rw [List.mem_singleton.1 hb']
      exact hbelow
  apart b' hb' w e a hc := by
    rcases List.mem_append.1 hb' with hb' | hb'
    · exact h.apart b' hb' w e a hc
    · rw [List.mem_singleton.1 hb']
      exact hapart w e a hc

end Spread

end Session

namespace Host.Sized

/-- No reference `e` is to an empty object. -/
theorem refers {h : Host} (hs : h.Sized) {e : Edge} (he : h.Refers e) : 0 < e.size := by
  cases he with
  | root reported => exact hs.root _ e reported
  | held reported mem => exact hs.held _ _ reported e mem

end Host.Sized

namespace SessionM

open Session

variable {s s' : Session} {blocks : List Span}

/-- Every change from `s` to `s'` leaves the copies apart. -/
theorem Change.spread (hc : Change s s') (hs : s.Sound) (hs' : s'.Sound) (hhost : s.host.Sized)
    (h : Spread blocks s) : Spread blocks s' := by
  have hearly (hnew : s.stage = .new) : s.output? = none := hs.output_eq_none (by rw [hnew]; decide)
  -- only a copy, an allocation and the switch of regions move the top
  cases hc with
  | seeded new step =>
    obtain ⟨_, _, _, rfl⟩ := step
    exact h.early (hearly new) hs hs' (hearly new) (fun _ => rfl) h.sized
  | noted new _ step =>
    refine h.early (hearly new) hs hs' (by rw [step.frame]; exact hearly new) step.sourceOf? fun w x hx => ?_
    obtain ⟨y, flag, hy, rfl⟩ := step.entry hs.books hx
    exact h.sized w y hy
  | found new refers step =>
    refine h.early (hearly new) hs hs' (by rw [step.frame]; exact hearly new) step.sourceOf? fun w x hx => ?_
    rcases step.entry hx with hold | ⟨-, bits?, rfl⟩
    · exact h.sized w x hold
    · exact hhost.refers refers
  | reserved stage =>
    refine h.withOutput hs rfl rfl fun o ho => ?_
    exact nomatch (hs.output_eq_none (by rw [stage]; decide)).symm.trans ho
  | @allocated o n _ out limit words =>
    have hgrows := Output.grows_advance (Nat.le_add_right o.arena.top (allocatedBytes n)) limit words
    refine h.withOutput hs rfl rfl fun o₁ ho₁ => ?_
    obtain rfl : o = o₁ := Option.some_inj.1 (out.symm.trans ho₁)
    exact ⟨_, rfl, rfl, hgrows.top_le, fun _ _ _ _ => Spread.grows_room hgrows⟩
  | slot step =>
    obtain ⟨o, o', n, ho, -, hchange, hs'⟩ := step
    exact h.touches hs (.inr ⟨o, o', ho, hchange.room, hs'⟩)
  | metered step => exact h.touches hs step.touches
  | copied copying step place =>
    obtain ⟨_, _, _, _, htop⟩ := CopiedOnTop.ofCopy copying step place
    exact h.onTop hs htop
  | halted _ halt place => exact h.halted hs halt place
  | switched _ step => exact h.switched hs step
  | aliased step => exact h.aliased hs step
  | linked step => exact h.touches hs step.touches
  | landed stage out land =>
    exact h.packed hs (by rw [stage]; decide) out rfl land.arena land.bottom rfl rfl
  | stranded stage out halt =>
    obtain ⟨top?, hroom⟩ := halt.room
    exact h.packed hs (by rw [stage]; decide) out rfl hroom.arena hroom.bottom rfl rfl
  | entered =>
    exact h.withOutput hs rfl rfl fun o ho => ⟨o, ho, rfl, Nat.le_refl _, fun _ _ _ _ => id⟩

/-- The copy of `w` stays where it is, at `a`. -/
theorem Change.output_kept (hc : Change s s') (hs : s.Sound) {w : Word} {e : SourceEntry} {a : Addr .buffer}
    (he : s.catalog.get? w = some e) (ha : e.output? = some a) :
    ∃ e', s'.catalog.get? w = some e' ∧ e'.output? = some a := by
  cases hc with
  | seeded _ step => obtain ⟨_, _, _, rfl⟩ := step; exact ⟨e, he, ha⟩
  | noted _ _ step =>
    rcases step.get? hs.books w with hsame | ⟨y, hy, hnoted⟩
    · exact ⟨e, hsame.trans he, ha⟩
    · obtain rfl : e = y := Option.some_inj.1 (he.symm.trans hy)
      exact ⟨_, hnoted, ha⟩
  | found _ _ step =>
    rcases step.get? w with hsame | ⟨-, hnone, -⟩
    · exact ⟨e, hsame.trans he, ha⟩
    · exact nomatch hnone.symm.trans he
  | slot step => obtain ⟨_, _, _, -, -, -, rfl⟩ := step; exact ⟨e, he, ha⟩
  | metered step => obtain ⟨_, -, rfl⟩ := step; exact ⟨e, he, ha⟩
  | copied _ step =>
    obtain ⟨x, _, _, _, _, _, _, -, hx, -, hfresh, -, hget, rfl⟩ := step
    refine ⟨e, (hget w).trans ?_, ha⟩
    rw [if_neg]
    · exact he
    · rintro rfl
      obtain rfl : e = x := Option.some_inj.1 (he.symm.trans hx)
      exact nomatch hfresh.symm.trans ha
  | halted _ halt =>
    obtain ⟨rfl, -⟩ | ⟨_, _, -, -, _, _, -, hget, rfl⟩ := halt
    · exact ⟨e, he, ha⟩
    · exact ⟨e, (hget w).trans he, ha⟩
  | switched _ step => obtain ⟨_, _, -, -, rfl⟩ := step; exact ⟨e, he, ha⟩
  | aliased step => exact ⟨e, step.get?_of_some he, ha⟩
  | linked step => obtain ⟨_, _, _, _, _, _, -, -, -, -, -, rfl⟩ := step; exact ⟨e, he, ha⟩
  | reserved | allocated | landed | stranded | entered => exact ⟨e, he, ha⟩

theorem Develops.output_kept (h : Develops s s') {w : Word} {e : SourceEntry} {a : Addr .buffer}
    (he : s.catalog.get? w = some e) (ha : e.output? = some a) :
    ∃ e', s'.catalog.get? w = some e' ∧ e'.output? = some a :=
  h.keeps (I := fun s => ∃ e, s.catalog.get? w = some e ∧ e.output? = some a)
    (fun _ _ hs _ hc ⟨_, he, ha⟩ => hc.output_kept hs he ha) ⟨e, he, ha⟩

end SessionM

namespace Call

open Session

variable {c : Call} {s : Session} {b : Span} {blocks : List Span}

theorem after_allocateOther (s : Session) (n : Nat) :
    (allocateOther n).after s = ((SessionM.allocateOther n).perform s).2.session := by
  change ((SessionM.allocateOther n >>= fun _ => pure ()).on ⟨s, #[]⟩).2.session = _
  rw [on_bind]
  change _ = ((SessionM.allocateOther n).on ⟨s, #[]⟩).2.session
  rcases (SessionM.allocateOther n).on ⟨s, #[]⟩ with ⟨_ | _, _⟩ <;> rfl

/-- A block `b` that a call allocates starts at the old top of the arena and ends at or below the
    new one. -/
theorem block?_bounds (h : s.Sound) (hb : c.block? s = some b) :
    (c.after s).catalog = s.catalog ∧ ∃ o o', s.output? = some o ∧ (c.after s).output? = some o' ∧
      b.start = o.buffer.bottom.toNat + o.arena.top ∧ b.stop ≤ o'.buffer.bottom.toNat + o'.arena.top := by
  cases c with
  | allocateOther n =>
    change ((SessionM.allocateOther n).perform s).1.toOption.map _ = some b at hb
    obtain ⟨a, ha, -, o, t, stats, ho, rfl, -, hroom, hhigh, -, hs'⟩ | ⟨f, hf, -⟩ :=
      (triple_allocateOther h.arenas n).perform rfl
    · rw [ha] at hb
      obtain rfl := Option.some_inj.1 hb
      have hf := h.filled o ho
      have hplace : (o.buffer.addrAt o.arena.top).toNat = _ :=
        Buffer.toNat_addrAt (hf.arena.top_le_length.trans (Nat.le_of_eq hf.length))
      rw [after_allocateOther, hs']
      refine ⟨rfl, o, _, ho, rfl, hplace, ?_⟩
      rw [Arena.top_advance]
      dsimp only
      omega
    · rw [hf] at hb
      cases hb
  | _ => cases hb

/-- Every call `c` leaves the copies apart, from each other and from the block that it may
    allocate. -/
theorem spread_after (c : Call) (h : s.Sound) (hhost : s.host.Sized) (hspread : Spread blocks s) :
    Spread (blocks ++ (c.block? s).toList) (c.after s) := by
  have hnext : Spread blocks (c.after s) :=
    ((c.develops_after h).keeps (I := fun s => s.host.Sized ∧ Spread blocks s)
      (fun _ _ hs hs' hc hI => ⟨hc.frame.1 ▸ hI.1, hc.spread hs hs' hI.1 hI.2⟩) ⟨hhost, hspread⟩).2
  cases hb : c.block? s with
  | none => simpa using hnext
  | some b =>
    obtain ⟨hcatalog, o, o', ho, ho', hstart, hstop⟩ := c.block?_bounds h hb
    refine hnext.withBlock ⟨o', ho', hstop⟩ fun w e a hc => .inr ?_
    unfold HasCopy at hc
    rw [hcatalog] at hc
    have hle : a.toNat + e.size ≤ o.buffer.bottom.toNat + o.arena.top := HasCopy.le_top hc h ho
    exact hle.trans (Nat.le_of_eq hstart.symm)

end Call

namespace SessionM

variable {s : Session}

/-- The place `a` of the copy of `w` can be asked for once there is one. -/
theorem outputAddr_eq_ok {w : Word} {a : Addr .buffer} :
    ((outputAddr w).perform s).1 = .ok a ↔ ∃ e, s.catalog.get? w = some e ∧ e.output? = some a := by
  change ((ofViolation (s.catalog.outputOf w)).perform s).1 = .ok a ↔ _
  unfold Catalog.outputOf
  rw [← Option.bind_eq_some_iff]
  cases (s.catalog.get? w).bind SourceEntry.output? with
  | none => constructor <;> (intro h; cases h)
  | some b => exact ⟨fun h => congrArg some (Except.ok.inj h), fun h => congrArg Except.ok (Option.some_inj.1 h)⟩

theorem sourceAddr_eq_ok {w : Word} {a : Addr .buffer} :
    ((sourceAddr a).perform s).1 = .ok w ↔ s.catalog.sourceOf? a = some w := by
  cases hsource : s.catalog.sourceOf? a with
  | none =>
    have hrun : (sourceAddr a).perform s = (.error (.error (.invariant (.unknownOutput a.word))), ⟨s, #[]⟩) :=
      on_eq_error (r := ⟨s, #[]⟩) (by simp [sourceAddr, hsource])
    rw [hrun]
    constructor <;> (intro h; cases h)
  | some b =>
    have hrun : (sourceAddr a).perform s = (.ok b, ⟨s, #[]⟩) :=
      on_eq_ok (r := ⟨s, #[]⟩) (by simp [sourceAddr, hsource])
    rw [hrun, Except.ok.injEq, Option.some_inj]

end SessionM

namespace Session

variable {s : Session} {blocks : List Span}

theorem Spread.afterCalls (h : s.Sound) (hhost : s.host.Sized) (hspread : Spread blocks s) (calls : List Call) :
    Spread (blocks ++ s.blocks calls) (s.afterCalls calls) := by
  induction calls generalizing s blocks with
  | nil =>
    rw [Session.blocks, List.append_nil]
    exact hspread
  | cons c rest ih =>
    have hframe := (c.develops_after h).frame.1
    have := ih (c.sound_after h) (hframe ▸ hhost) (c.spread_after h hhost hspread)
    rw [List.append_assoc] at this
    exact this

/-- Copies of `w` and `w'` share no byte: those of a list ascend, and the mutable region ends below
    the other one. -/
theorem Spread.disjoint (h : Spread blocks s) (hs : s.Sound) {w w' : Word} {e e' : SourceEntry}
    {a a' : Addr .buffer} (hc : s.HasCopy w e a) (hc' : s.HasCopy w' e' a') (hne : w ≠ w') :
    (e.span a).Apart (e'.span a') := by
  obtain ⟨o, ho⟩ := hc.output hs
  have hlow := (hs.filled o ho).arena.mutable_top
  have hhigh := (hs.filled o ho).arena.mutable_limit
  have hin := h.houses o ho w e a hc
  have hin' := h.houses o ho w' e' a' hc'
  have hlisted := hc.listed hs
  have hlisted' := hc'.listed hs
  by_cases hkind : RegionKind.ofReadOnly e.readOnly = .ofReadOnly e'.readOnly
  · let Apart (v v' : Word) : Prop :=
      ∀ x b x' b', s.HasCopy v x b → s.HasCopy v' x' b' → (x.span b).Apart (x'.span b')
    have hsymm : Std.Symm Apart := ⟨fun v v' hv x b x' b' hb hb' => (hv x' b' x b hb' hb).symm⟩
    have hpairs : (s.books.sources (.ofReadOnly e.readOnly)).Pairwise Apart :=
      (h.ascending _).imp fun hv x b x' b' hb hb' => .inl (hv x b x' b' hb hb')
    exact hpairs.forall hlisted (hkind ▸ hlisted') hne e a e' a' hc hc'
  · obtain ⟨-, hbase, htop⟩ := hin
    obtain ⟨-, hbase', htop'⟩ := hin'
    unfold Span.Apart SourceEntry.span
    dsimp only
    rcases hk : RegionKind.ofReadOnly e.readOnly <;> rcases hk' : RegionKind.ofReadOnly e'.readOnly <;>
      rw [hk] at hbase htop hkind <;> rw [hk'] at hbase' htop' hkind <;>
      first | exact absurd rfl hkind | (unfold Arena.region at *; dsimp only at *; omega)

/-- A session as it begins has no copies. -/
theorem spread_begin {host : Host} {reservations : Reservations} {settings : Settings}
    {mapped? : Option (AddrRange .mapped)} {alive : Bool}
    (hbegin : begin host reservations settings mapped? alive = .ok s) : Spread [] s := by
  have hs := sound_begin hbegin
  obtain ⟨-, d?, -, rfl⟩ := begin_eq_ok hbegin
  refine .ofBare rfl hs (fun a => ?_) fun w e he => ?_
  · simp [fresh, Catalog.empty, Catalog.sourceOf?]
  · simp [fresh] at he

/-- The places of the copies of `s` are told apart by the objects that they are copies of, and the
    other way round. -/
structure PlacedApart (blocks : List Span) (s : Session) : Prop where
  inverse : ∀ w e, s.catalog.get? w = some e → e.isCopied = true → e.isAlias = false → ∀ a,
    ((outputAddr w).perform s).1 = .ok a ↔ ((sourceAddr a).perform s).1 = .ok w
  disjoint : ∀ w e a w' e' a', s.HasCopy w e a → s.HasCopy w' e' a' → w ≠ w' →
    (e.span a).Apart (e'.span a')
  /-- Copies lie in the region of their objects, above the bottom padding. -/
  housed : ∀ w e a, s.HasCopy w e a → ∃ o, s.output? = some o ∧ o.Houses e a
  blocks : ∀ b ∈ blocks, ∀ w e a, s.HasCopy w e a → b.Apart (e.span a)
  ascending : ∀ kind, (s.books.sources kind).Pairwise fun v w => ∀ e a e' a', s.HasCopy v e a →
    s.HasCopy w e' a' → (e.span a).stop ≤ (e'.span a').start
  /-- What is not copied has no place. -/
  uncopied : ∀ w e, s.catalog.get? w = some e → e.disposition ≠ .copy → ∀ a,
    ((outputAddr w).perform s).1 ≠ .ok a

theorem Spread.placedApart (h : Spread blocks s) (hs : s.Sound) : PlacedApart blocks s where
  inverse w e he hcopied halias a := by
    rw [outputAddr_eq_ok, sourceAddr_eq_ok, h.claims]
    refine ⟨fun ⟨x, hx, ha⟩ => ⟨x, hx, ?_, ha⟩, fun ⟨x, hx, _, ha⟩ => ⟨x, hx, ha⟩⟩
    obtain rfl : e = x := Option.some_inj.1 (he.symm.trans hx)
    exact halias
  disjoint _ _ _ _ _ _ hc hc' hne := h.disjoint hs hc hc' hne
  housed w e a hc := by
    obtain ⟨o, ho⟩ := hc.output hs
    exact ⟨o, ho, h.houses o ho w e a hc⟩
  blocks := h.apart
  ascending := h.ascending
  uncopied w e he hfate a ha := by
    obtain ⟨x, hx, hout⟩ := outputAddr_eq_ok.1 ha
    obtain rfl : e = x := Option.some_inj.1 (he.symm.trans hx)
    exact hfate (beq_iff_eq.1 (hs.books.copied w e he (by rw [hout]; rfl)))

/-- Whatever `calls` are made on a session over a heap, each copy has bytes of its own, and its
    place is never changed by `later` ones. -/
theorem copies_placed_apart {h : Heap} (made : h.Made) {reservations : Reservations} {settings : Settings}
    {mapped? : Option (AddrRange .mapped)} {alive : Bool}
    (hbegin : begin h.toHost reservations settings mapped? alive = .ok s) (calls : List Call) :
    PlacedApart (s.blocks calls) (s.afterCalls calls) ∧
    ∀ later w a, ((outputAddr w).perform (s.afterCalls calls)).1 = .ok a →
      ((outputAddr w).perform (s.afterCalls (calls ++ later))).1 = .ok a := by
  have hs := sound_begin hbegin
  have hafter := (hs.develops calls).sound
  have hhost : s.host.Sized := by
    obtain ⟨-, d?, -, rfl⟩ := begin_eq_ok hbegin
    exact made.sound.sized
  have hspread : Spread (s.blocks calls) (s.afterCalls calls) :=
    (spread_begin hbegin).afterCalls hs hhost calls
  refine ⟨hspread.placedApart hafter, fun later w a ha => ?_⟩
  obtain ⟨e, he, hout⟩ := outputAddr_eq_ok.1 ha
  rw [afterCalls_append]
  exact outputAddr_eq_ok.2 ((hafter.develops later).output_kept he hout)

/-- A type descriptor that points at a string and at another object. -/
def describedHeap : Heap :=
  (Heap.create 0x100000000000 0).afterCalls
    [.alloc .typeDescriptor 2 (some "Point"), .alloc .internedString 1 none, .alloc .other 1 none,
      .setPointer 0x100000000000 0 (some 0x100000000010) none,
      .setPointer 0x100000000000 1 (some 0x100000000018) none]

theorem describedHeap_made : describedHeap.Made :=
  (Heap.Made.create (by decide) (by decide)).afterCalls _

/-- A session over that heap. -/
def describedFresh : Session :=
  fresh describedHeap.toHost ⟨⟨0x20000⟩, 0x1000, room_fits⟩ ⟨0x8000, 8, 0, false⟩ none

/-- Blocks are allocated before each region is copied, and some calls fail. -/
def describedCalls : List Call :=
  [.gather [0x100000000000], .reserveBuffer ⟨0, 0, 64⟩, .allocateOther 8, .wire, .copyMutable noTables,
    .copyMutable noTables, .allocateOther 12, .copyReadOnly noTables]

/-- The copies lie around two blocks; that of the descriptor has its lookup record in front. -/
theorem copies_placed_apart_described :
    begin describedHeap.toHost ⟨⟨0x20000⟩, 0x1000, room_fits⟩ ⟨0x8000, 8, 0, false⟩ none false =
      .ok describedFresh ∧
    describedFresh.blocks describedCalls = [⟨0x20010, 0x20018⟩, ⟨0x20038, 0x20044⟩] ∧
    ((sourceAddr ⟨0x20020⟩).perform (describedFresh.afterCalls describedCalls)).1 = .ok 0x100000000000 ∧
    ((outputAddr 0x100000000000).perform (describedFresh.afterCalls (describedCalls ++ [.wire]))).1 =
      .ok ⟨0x20020⟩ ∧
    PlacedApart [⟨0x20010, 0x20018⟩, ⟨0x20038, 0x20044⟩] (describedFresh.afterCalls describedCalls) := by
  have hbegin : begin describedHeap.toHost ⟨⟨0x20000⟩, 0x1000, room_fits⟩ ⟨0x8000, 8, 0, false⟩ none false =
      .ok describedFresh := begin_fresh (by decide +kernel)
  have hblocks : describedFresh.blocks describedCalls = [⟨0x20010, 0x20018⟩, ⟨0x20038, 0x20044⟩] := by
    decide +kernel
  obtain ⟨hapart, hkept⟩ := copies_placed_apart describedHeap_made hbegin describedCalls
  rw [hblocks] at hapart
  have hentry : ((describedFresh.afterCalls describedCalls).catalog.get? 0x100000000000).map
      (fun e => (e.isCopied, e.isAlias, e.output?)) = some (true, false, some ⟨0x20020⟩) := by
    decide +kernel
  obtain ⟨e, he, hfields⟩ := Option.map_eq_some_iff.1 hentry
  obtain ⟨hcopied, hplain, hout⟩ : e.isCopied = true ∧ e.isAlias = false ∧ e.output? = some ⟨0x20020⟩ := by
    simpa using hfields
  have hplace : ((outputAddr 0x100000000000).perform (describedFresh.afterCalls describedCalls)).1 =
      .ok ⟨0x20020⟩ := outputAddr_eq_ok.2 ⟨e, he, hout⟩
  exact ⟨hbegin, hblocks, (hapart.inverse _ e he hcopied hplain _).1 hplace, hkept [.wire] _ _ hplace, hapart⟩

end Session

end SnapshotArchive
