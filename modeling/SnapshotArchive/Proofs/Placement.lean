import Mathlib.Data.List.Basic
import Mathlib.Data.List.Pairwise
import Mathlib.Tactic.Common
import SnapshotArchive.Proofs.Allocation
import SnapshotArchive.Proofs.Books

/-!
Where copies lie. The copies of a region follow each other in the order of its list, each at or above
the end of the one before, and what is not copied yet comes last. So two copies never share a byte,
and every copy lies in the region that its entry asks for.
-/

namespace SnapshotArchive

/-- Copies by offset, each at or above the end of the one before, from `lo` up to `hi`. -/
def Fits : (lo hi : Nat) → List (Nat × SourceEntry) → Prop
  | lo, hi, [] => lo ≤ hi
  | lo, hi, (offset, e) :: rest => lo ≤ offset ∧ Fits (offset + e.size) hi rest

namespace Fits

variable {lo hi : Nat} {xs ys : List (Nat × SourceEntry)}

theorem le (h : Fits lo hi xs) : lo ≤ hi := by
  induction xs generalizing lo with
  | nil => exact h
  | cons x rest ih =>
    obtain ⟨hlo, hrest⟩ := h
    have := ih hrest
    omega

theorem raise {hi' : Nat} (h : Fits lo hi xs) (hhi : hi ≤ hi') : Fits lo hi' xs := by
  induction xs generalizing lo with
  | nil => exact Nat.le_trans h hhi
  | cons x rest ih => exact ⟨h.1, ih h.2⟩

theorem append {mid : Nat} (hx : Fits lo mid xs) (hy : Fits mid hi ys) : Fits lo hi (xs ++ ys) := by
  induction xs generalizing lo with
  | nil =>
    cases ys with
    | nil => exact Nat.le_trans hx hy
    | cons y rest => exact ⟨Nat.le_trans hx hy.1, hy.2⟩
  | cons x rest ih => exact ⟨hx.1, ih hx.2⟩

/-- A copy `p` among `xs` lies between `lo` and `hi`. -/
theorem bounds (h : Fits lo hi xs) {p : Nat × SourceEntry} (hp : p ∈ xs) :
    lo ≤ p.1 ∧ p.1 + p.2.size ≤ hi := by
  induction xs generalizing lo with
  | nil => cases hp
  | cons x rest ih =>
    obtain ⟨hlo, hrest⟩ := h
    rcases List.mem_cons.1 hp with rfl | hp
    · exact ⟨hlo, le hrest⟩
    · have := ih hrest hp
      exact ⟨by omega, this.2⟩

/-- Two copies of `xs` share no byte. -/
theorem pairwise (h : Fits lo hi xs) : xs.Pairwise fun p q => p.1 + p.2.size ≤ q.1 := by
  induction xs generalizing lo with
  | nil => exact List.Pairwise.nil
  | cons x rest ih => exact List.pairwise_cons.2 ⟨fun q hq => (bounds h.2 hq).1, ih h.2⟩

end Fits

namespace Catalog

/-- The copy of the object `w` was made. -/
def Placed (c : Catalog) (w : Word) : Prop := ∃ e, c.get? w = some e ∧ e.output?.isSome = true

/-- The copies among `sources`, with their offsets from `bottom`. -/
def spots (c : Catalog) (bottom : Addr .buffer) (sources : List Word) : List (Nat × SourceEntry) :=
  sources.filterMap fun source => do
    let entry ← c.get? source
    let target ← entry.output?
    return (target.toNat - bottom.toNat, entry)

variable {c c' : Catalog} {bottom : Addr .buffer}

theorem spots_append (xs ys : List Word) :
    c.spots bottom (xs ++ ys) = c.spots bottom xs ++ c.spots bottom ys := List.filterMap_append ..

theorem spots_congr {xs : List Word} (h : ∀ w ∈ xs, c'.get? w = c.get? w) :
    c'.spots bottom xs = c.spots bottom xs := by
  unfold spots
  refine List.filterMap_congr fun w hw => ?_
  rw [h w hw]

theorem mem_spots {xs : List Word} {w : Word} {e : SourceEntry} {target : Addr .buffer} (hw : w ∈ xs)
    (he : c.get? w = some e) (ht : e.output? = some target) :
    (target.toNat - bottom.toNat, e) ∈ c.spots bottom xs := by
  refine List.mem_filterMap.2 ⟨w, hw, ?_⟩
  rw [he]
  simp [ht]

theorem spots_eq_nil {xs : List Word} (h : ∀ w ∈ xs, ¬c.Placed w) : c.spots bottom xs = [] := by
  refine List.filterMap_eq_nil_iff.2 fun w hw => ?_
  cases he : c.get? w with
  | none => rfl
  | some e =>
    cases ho : e.output? with
    | none => simp [ho]
    | some target => exact absurd ⟨e, he, by rw [ho]; rfl⟩ (h w hw)

theorem spots_singleton {w : Word} {e : SourceEntry} {target : Addr .buffer}
    (he : c.get? w = some e) (ht : e.output? = some target) :
    c.spots bottom [w] = [(target.toNat - bottom.toNat, e)] := by
  simp [spots, he, ht]

end Catalog

/-- How the copies of the books `b` lie in a buffer at `bottom`. -/
structure Layout (b : Books) (bottom : Addr .buffer) (a : Arena) : Prop where
  /-- The read-only objects wait for their region. -/
  waiting : a.current = .mutable → ∀ w ∈ b.sources .readOnly, ¬b.catalog.Placed w
  inOrder : ∀ kind, (b.sources kind).Pairwise fun v w => b.catalog.Placed w → b.catalog.Placed v
  fits_mutable : Fits bottomPadding a.mutable.top (b.catalog.spots bottom (b.sources .mutable))
  fits_readOnly : Fits a.readOnly.base a.readOnly.top (b.catalog.spots bottom (b.sources .readOnly))
  inside : ∀ w e target, b.catalog.get? w = some e → e.output? = some target →
    ∃ offset, target.toNat = bottom.toNat + offset ∧ 8 ∣ offset ∧ bottomPadding ≤ offset ∧
      offset + e.size ≤ a.top

namespace Layout

variable {b b' : Books} {bottom : Addr .buffer} {a a' : Arena}

/-- Nothing is copied into a fresh buffer. -/
theorem ofUnplaced (ha : a.Sound) (h : ∀ w, ¬b.catalog.Placed w) : Layout b bottom a where
  waiting _ w _ := h w
  inOrder kind := List.pairwise_of_forall fun _ w hw => absurd hw (h w)
  fits_mutable := by rw [Catalog.spots_eq_nil fun w _ => h w]; exact ha.padding
  fits_readOnly := by rw [Catalog.spots_eq_nil fun w _ => h w]; exact ha.readOnly_base
  inside w e target he ht := absurd ⟨e, he, by rw [ht]; rfl⟩ (h w)

/-- A change of the catalog from `b` to `b'` that leaves the listed objects alone. -/
theorem changeOthers (h : Layout b bottom a) (hsources : ∀ kind, b'.sources kind = b.sources kind)
    (hlisted : ∀ kind, ∀ w ∈ b.sources kind, b'.catalog.get? w = b.catalog.get? w)
    (hinside : ∀ w e target, b'.catalog.get? w = some e → e.output? = some target →
      ∃ offset, target.toNat = bottom.toNat + offset ∧ 8 ∣ offset ∧ bottomPadding ≤ offset ∧
        offset + e.size ≤ a.top) : Layout b' bottom a where
  waiting hc w hw := by
    rw [hsources] at hw
    rintro ⟨e, he, ho⟩
    exact h.waiting hc w hw ⟨e, (hlisted _ w hw).symm.trans he, ho⟩
  inOrder kind := by
    rw [hsources]
    refine List.Pairwise.imp_of_mem ?_ (h.inOrder kind)
    rintro v w hv hw hvw ⟨e, he, ho⟩
    obtain ⟨e', he', ho'⟩ := hvw ⟨e, (hlisted kind w hw).symm.trans he, ho⟩
    exact ⟨e', (hlisted kind v hv).trans he', ho'⟩
  fits_mutable := by rw [hsources, Catalog.spots_congr (hlisted _)]; exact h.fits_mutable
  fits_readOnly := by rw [hsources, Catalog.spots_congr (hlisted _)]; exact h.fits_readOnly
  inside := hinside

/-- Allocation goes on above the copies, up to `t`. -/
theorem advance (h : Layout b bottom a) {t : Nat} (ht : a.top ≤ t) : Layout b bottom (a.advance t) where
  waiting hc := h.waiting (by rw [← hc, Arena.current_advance])
  inOrder := h.inOrder
  fits_mutable := by
    have := h.fits_mutable
    unfold Arena.top Arena.currentRegion at ht
    unfold Arena.advance Arena.setCurrent Arena.currentRegion
    cases hc : a.current with
    | mutable => rw [hc] at ht; exact this.raise ht
    | readOnly => exact this
  fits_readOnly := by
    have := h.fits_readOnly
    unfold Arena.top Arena.currentRegion at ht
    unfold Arena.advance Arena.setCurrent Arena.currentRegion
    cases hc : a.current with
    | mutable => exact this
    | readOnly => rw [hc] at ht; exact this.raise ht
  inside w e target he ho := by
    obtain ⟨offset, htarget, hdvd, hlow, hhigh⟩ := h.inside w e target he ho
    exact ⟨offset, htarget, hdvd, hlow, by rw [Arena.top_advance]; omega⟩

/-- The read-only region starts above the mutable copies. -/
theorem startReadOnly (h : Layout b bottom a) (ha : a.Sound) (he : a.startReadOnly = .ok a') :
    Layout b bottom a' := by
  obtain ⟨hc, hc', ha', -, -, htop, hstart⟩ := Arena.startReadOnly_eq_ok ha he
  refine ⟨?_, h.inOrder, h.fits_mutable.raise htop, ?_, ?_⟩
  · intro hm
    rw [hm] at hc'
    cases hc'
  · rw [Catalog.spots_eq_nil (h.waiting hc)]
    exact ha'.readOnly_base
  · intro w e target hw ho
    obtain ⟨offset, htarget, hdvd, hlow, hhigh⟩ := h.inside w e target hw ho
    refine ⟨offset, htarget, hdvd, hlow, ?_⟩
    have := ha'.region_top_le hc' .mutable
    unfold Arena.top Arena.currentRegion at hhigh
    rw [hc] at hhigh
    exact Nat.le_trans hhigh (Nat.le_trans htop this)

/-- Packing the read-only region moves no copy. -/
theorem pack (h : Layout b bottom a) (ha : a.Sound) (hc : a.current = .readOnly) :
    Layout b bottom a.pack := by
  obtain ⟨-, hc', -, -, hmutable, hbase, htop⟩ := ha.pack hc
  refine ⟨?_, h.inOrder, by rw [hmutable]; exact h.fits_mutable,
    by rw [hbase]; exact h.fits_readOnly.raise htop, ?_⟩
  · intro hm
    rw [hm] at hc'
    cases hc'
  · intro w e target hw ho
    obtain ⟨offset, htarget, hdvd, hlow, hhigh⟩ := h.inside w e target hw ho
    refine ⟨offset, htarget, hdvd, hlow, ?_⟩
    unfold Arena.top Arena.currentRegion at hhigh ⊢
    rw [hc] at hhigh
    rw [hc']
    exact Nat.le_trans hhigh htop

variable {e : SourceEntry} {target : Addr .buffer} {done rest : List Word}

/-- The books `b'` are `b` with the copy of `e` made at `target`. -/
def Copied (b b' : Books) (e : SourceEntry) (target : Addr .buffer) : Prop :=
  (∀ kind, b'.sources kind = b.sources kind) ∧
    ∀ w, b'.catalog.get? w =
      if e.source = w then some { e with output? := some target } else b.catalog.get? w

theorem placed_of_copied (h : Copied b b' e target) {w : Word} :
    b'.catalog.Placed w ↔ e.source = w ∨ b.catalog.Placed w := by
  unfold Catalog.Placed
  rw [h.2 w]
  by_cases hw : e.source = w
  · simp [hw]
  · simp [hw]

/-- The next object of a region, after `done`, is copied to the end of its spots. -/
theorem spots_of_copied (h : Copied b b' e target) (hnodup : (done ++ e.source :: rest).Nodup)
    (hrest : ∀ w ∈ e.source :: rest, ¬b.catalog.Placed w) :
    b'.catalog.spots bottom (done ++ e.source :: rest) =
      b.catalog.spots bottom (done ++ e.source :: rest) ++
        [(target.toNat - bottom.toNat, { e with output? := some target })] := by
  obtain ⟨-, htail, hapart⟩ := List.nodup_append.1 hnodup
  have hdone : b'.catalog.spots bottom done = b.catalog.spots bottom done :=
    Catalog.spots_congr fun w hw => by
      rw [h.2, if_neg]
      rintro rfl
      exact hapart _ hw _ (List.mem_cons_self ..) rfl
  have hnil : b'.catalog.spots bottom rest = [] := Catalog.spots_eq_nil fun w hw hp => by
    rcases (placed_of_copied h).1 hp with rfl | hp
    · exact (List.nodup_cons.1 htail).1 hw
    · exact hrest w (List.mem_cons_of_mem _ hw) hp
  have hhere : b'.catalog.get? e.source = some { e with output? := some target } := by
    rw [h.2, if_pos rfl]
  rw [Catalog.spots_append, Catalog.spots_append, hdone, Catalog.spots_eq_nil hrest,
    ← List.singleton_append, Catalog.spots_append, hnil, Catalog.spots_singleton hhere rfl,
    List.append_nil, List.append_nil]

/-- An object is listed in the region that its entry `e` asks for, and in no other. -/
theorem source_ne (hkept : b.Kept) (he : b.catalog.get? e.source = some e) {kind : RegionKind}
    (hkind : RegionKind.ofReadOnly e.readOnly ≠ kind) {w : Word} (hw : w ∈ b.sources kind) :
    e.source ≠ w := by
  rintro rfl
  obtain ⟨x, hx, -, -, hk⟩ := hkept.listed kind _ hw
  rw [he] at hx
  cases hx
  exact hkind hk

/-- The copy of `e` takes the next spot of its region; the other region keeps its spots. -/
theorem spots_place (hkept : b.Kept) {offset : Nat} (hcopied : Copied b b' e target)
    (he : b.catalog.get? e.source = some e)
    (hsplit : b.sources (.ofReadOnly e.readOnly) = done ++ e.source :: rest)
    (hrest : ∀ w ∈ e.source :: rest, ¬b.catalog.Placed w)
    (htarget : target.toNat = bottom.toNat + offset) (kind : RegionKind) :
    b'.catalog.spots bottom (b'.sources kind) = b.catalog.spots bottom (b.sources kind) ++
      if RegionKind.ofReadOnly e.readOnly = kind then [(offset, { e with output? := some target })] else [] := by
  have hnodup := hkept.nodup (.ofReadOnly e.readOnly)
  rw [hsplit] at hnodup
  rw [hcopied.1]
  split
  · rename_i hkind
    rw [← hkind, hsplit, spots_of_copied hcopied hnodup hrest, htarget, Nat.add_sub_cancel_left]
  · rename_i hkind
    rw [List.append_nil]
    exact Catalog.spots_congr fun w hw => by rw [hcopied.2, if_neg (source_ne hkept he hkind hw)]

/-- Objects are copied in the order in which they are listed: `done`, then that of `e`. -/
theorem inOrder_place (h : Layout b bottom a) (hkept : b.Kept) (hcopied : Copied b b' e target)
    (he : b.catalog.get? e.source = some e)
    (hsplit : b.sources (.ofReadOnly e.readOnly) = done ++ e.source :: rest)
    (hdone : ∀ w ∈ done, b.catalog.Placed w) (hrest : ∀ w ∈ e.source :: rest, ¬b.catalog.Placed w)
    (kind : RegionKind) :
    (b'.sources kind).Pairwise fun v w => b'.catalog.Placed w → b'.catalog.Placed v := by
  rw [hcopied.1]
  by_cases hkind : RegionKind.ofReadOnly e.readOnly = kind
  · have hnodup := hkept.nodup (.ofReadOnly e.readOnly)
    have hold := h.inOrder kind
    rw [hsplit] at hnodup
    rw [← hkind, hsplit] at hold ⊢
    obtain ⟨-, htail, -⟩ := List.nodup_append.1 hnodup
    have hlater : ∀ w ∈ rest, ¬b'.catalog.Placed w := by
      intro w hw hp
      rcases (placed_of_copied hcopied).1 hp with rfl | hp
      · exact (List.nodup_cons.1 htail).1 hw
      · exact hrest w (List.mem_cons_of_mem _ hw) hp
    have hearlier : ∀ v ∈ done, b'.catalog.Placed v := fun v hv =>
      (placed_of_copied hcopied).2 (Or.inr (hdone v hv))
    refine List.pairwise_append.2 ⟨?_, List.pairwise_cons.2 ⟨?_, ?_⟩, fun v hv _ _ _ => hearlier v hv⟩
    · exact (hold.sublist (by simp)).imp_of_mem fun hv _ _ _ => hearlier _ hv
    · exact fun w hw hp => absurd hp (hlater w hw)
    · exact (hold.sublist (by simp)).imp_of_mem fun _ hw _ hp => absurd hp (hlater _ hw)
  · refine (h.inOrder kind).imp_of_mem fun _ hw hvw hp => ?_
    rcases (placed_of_copied hcopied).1 hp with rfl | hp
    · exact absurd rfl (source_ne hkept he hkind hw)
    · exact (placed_of_copied hcopied).2 (Or.inr (hvw hp))

/-- The next object of the current region is copied to fresh bytes at `offset`, below `t`. -/
theorem place (h : Layout b bottom a) (hkept : b.Kept) {offset t : Nat} (hcopied : Copied b b' e target)
    (hcurrent : a.current = .ofReadOnly e.readOnly) (he : b.catalog.get? e.source = some e)
    (hsplit : b.sources (.ofReadOnly e.readOnly) = done ++ e.source :: rest)
    (hdone : ∀ w ∈ done, b.catalog.Placed w)
    (hrest : ∀ w ∈ e.source :: rest, ¬b.catalog.Placed w)
    (htarget : target.toNat = bottom.toNat + offset) (hdvd : 8 ∣ offset) (hlow : a.top ≤ offset)
    (hhigh : offset + e.size ≤ t) (ha : a.Sound) : Layout b' bottom (a.advance t) := by
  have hspots := spots_place hkept hcopied he hsplit hrest htarget
  have hgrown := h.advance (t := t) (by omega)
  refine ⟨fun hc w hw hp => ?_, h.inOrder_place hkept hcopied he hsplit hdone hrest, ?_, ?_,
    fun w x target' hx ho => ?_⟩
  · rw [hcopied.1] at hw
    rw [Arena.current_advance, hcurrent] at hc
    rcases (placed_of_copied hcopied).1 hp with rfl | hp
    · exact source_ne hkept he (by rw [hc]; nofun) hw rfl
    · exact h.waiting (hcurrent.trans hc) w hw hp
  · rw [hspots]
    split
    · rename_i hkind
      have htop : a.top = a.mutable.top := by
        unfold Arena.top Arena.currentRegion
        rw [hcurrent, hkind]
        rfl
      have hend : (a.advance t).mutable.top = t := by
        unfold Arena.advance Arena.setCurrent
        rw [hcurrent, hkind]
      rw [hend]
      exact h.fits_mutable.append ⟨htop ▸ hlow, hhigh⟩
    · rw [List.append_nil]
      exact hgrown.fits_mutable
  · rw [hspots]
    split
    · rename_i hkind
      have htop : a.top = a.readOnly.top := by
        unfold Arena.top Arena.currentRegion
        rw [hcurrent, hkind]
        rfl
      have hend : (a.advance t).readOnly.top = t ∧ (a.advance t).readOnly.base = a.readOnly.base := by
        unfold Arena.advance Arena.setCurrent Arena.currentRegion
        rw [hcurrent, hkind]
        exact ⟨rfl, rfl⟩
      rw [hend.1, hend.2]
      exact h.fits_readOnly.append ⟨htop ▸ hlow, hhigh⟩
    · rw [List.append_nil]
      exact hgrown.fits_readOnly
  · rw [hcopied.2] at hx
    rw [Arena.top_advance]
    split at hx
    · cases hx
      cases ho
      exact ⟨offset, htarget, hdvd, Nat.le_trans ha.padding_le_top hlow, hhigh⟩
    · obtain ⟨off, hoff, hd, hpad, hin⟩ := h.inside w x target' hx ho
      exact ⟨off, hoff, hd, hpad, by omega⟩

variable {w w' : Word} {e' : SourceEntry} {target' : Addr .buffer}

/-- A copy at `target` lies in the region that its entry `e` asks for. -/
theorem within (h : Layout b bottom a) (hkept : b.Kept) (ha : a.Sound)
    (he : b.catalog.get? w = some e) (halias : e.isAlias = false) (ho : e.output? = some target) :
    (a.region (.ofReadOnly e.readOnly)).base ≤ target.toNat - bottom.toNat ∧
      target.toNat - bottom.toNat + e.size ≤ (a.region (.ofReadOnly e.readOnly)).top := by
  have hmem := hkept.enlisted w e he (hkept.copied w e he (by rw [ho]; rfl)) halias
  have hspot : (target.toNat - bottom.toNat, e) ∈
      b.catalog.spots bottom (b.sources (.ofReadOnly e.readOnly)) := Catalog.mem_spots hmem he ho
  cases hkind : RegionKind.ofReadOnly e.readOnly with
  | mutable =>
    rw [hkind] at hspot
    exact ⟨ha.base ▸ Nat.zero_le _, (h.fits_mutable.bounds hspot).2⟩
  | readOnly =>
    rw [hkind] at hspot
    exact h.fits_readOnly.bounds hspot

/-- Copies of `w` and `w'` in one region share no byte. -/
theorem apart_in {kind : RegionKind} {lo hi : Nat}
    (hfits : Fits lo hi (b.catalog.spots bottom (b.sources kind))) (hw : w ∈ b.sources kind)
    (hw' : w' ∈ b.sources kind) (hne : w ≠ w') (he : b.catalog.get? w = some e)
    (ho : e.output? = some target) (he' : b.catalog.get? w' = some e')
    (ho' : e'.output? = some target') :
    target.toNat - bottom.toNat + e.size ≤ target'.toNat - bottom.toNat ∨
      target'.toNat - bottom.toNat + e'.size ≤ target.toNat - bottom.toNat := by
  let Apart (v v' : Word) : Prop :=
    ∀ x t x' t', b.catalog.get? v = some x → x.output? = some t → b.catalog.get? v' = some x' →
      x'.output? = some t' → t.toNat - bottom.toNat + x.size ≤ t'.toNat - bottom.toNat ∨
        t'.toNat - bottom.toNat + x'.size ≤ t.toNat - bottom.toNat
  have hsymm : Std.Symm Apart := ⟨fun v v' hv x t x' t' h₁ h₂ h₃ h₄ => (hv x' t' x t h₃ h₄ h₁ h₂).symm⟩
  have hpairs : (b.sources kind).Pairwise Apart := by
    refine List.Pairwise.imp ?_ (List.pairwise_filterMap.1 hfits.pairwise)
    intro v v' hv x t x' t' hx ht hx' ht'
    exact Or.inl (hv (t.toNat - bottom.toNat, x) (by rw [hx]; simp [ht])
      (t'.toNat - bottom.toNat, x') (by rw [hx']; simp [ht']))
  exact hpairs.forall hw hw' hne e target e' target' he ho he' ho'

/-- Copies of `w` and `w'` share no byte. -/
theorem apart (h : Layout b bottom a) (hkept : b.Kept) (ha : a.Sound) (hne : w ≠ w')
    (he : b.catalog.get? w = some e) (halias : e.isAlias = false) (ho : e.output? = some target)
    (he' : b.catalog.get? w' = some e') (halias' : e'.isAlias = false)
    (ho' : e'.output? = some target') :
    target.toNat - bottom.toNat + e.size ≤ target'.toNat - bottom.toNat ∨
      target'.toNat - bottom.toNat + e'.size ≤ target.toNat - bottom.toNat := by
  have hmem := hkept.enlisted w e he (hkept.copied w e he (by rw [ho]; rfl)) halias
  have hmem' := hkept.enlisted w' e' he' (hkept.copied w' e' he' (by rw [ho']; rfl)) halias'
  have hin := h.within hkept ha he halias ho
  have hin' := h.within hkept ha he' halias' ho'
  have hm := ha.mutable_top
  have hl := ha.mutable_limit
  cases hk : RegionKind.ofReadOnly e.readOnly with
  | mutable =>
    rw [hk] at hmem hin
    cases hk' : RegionKind.ofReadOnly e'.readOnly with
    | mutable => rw [hk'] at hmem'; exact apart_in h.fits_mutable hmem hmem' hne he ho he' ho'
    | readOnly => rw [hk'] at hin'; simp only [Arena.region] at hin hin'; omega
  | readOnly =>
    rw [hk] at hmem hin
    cases hk' : RegionKind.ofReadOnly e'.readOnly with
    | mutable => rw [hk'] at hin'; simp only [Arena.region] at hin hin'; omega
    | readOnly => rw [hk'] at hmem'; exact apart_in h.fits_readOnly hmem hmem' hne he ho he' ho'

end Layout

end SnapshotArchive
