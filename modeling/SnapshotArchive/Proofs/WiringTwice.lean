import SnapshotArchive.Proofs.BuildingTwice
import SnapshotArchive.Proofs.Loading

/-!
Wiring two archives that were filled alike. The same words are wired, and wired pointers lead to the same
place: into copies at the same distance from the bottoms of the buffers, or to corresponding objects of the
dependencies.
-/

namespace SnapshotArchive

open Session SessionM

/-- The distance of `a` from the address `b`, `n` bytes below it. -/
theorem Addr.distance {c : Space} {a b : Addr c} {n : Nat} (h : a.toNat = b.toNat + n) :
    (a.word - b.word).toNat = n := by
  have hle : b.word ≤ a.word := UInt64.le_iff_toNat_le.2 (by change b.toNat ≤ a.toNat; omega)
  rw [UInt64.toNat_sub_of_le _ _ hle]
  change a.toNat - b.toNat = n
  omega

namespace Heap.Corresponds

variable {h h' : Heap} {Mate : Word → Word → Prop} {a a' t t' : Word} {i : Nat}

/-- Corresponding fields `i` hold corresponding objects. -/
theorem holds (hc : h.Corresponds h' Mate) (hs : h.Sound) (hs' : h'.Sound) (hmate : Mate a a')
    (hholds : h.Holds a i t) : ∃ t', Mate t t' ∧ h'.Holds a' i t' := by
  obtain ⟨o, ho, hfield, hlt, hread, hsome⟩ := hholds
  obtain ⟨o', ho', halike⟩ := hc.alike hmate ho
  have hfield' : i ∈ o'.fields := by
    rw [← Std.TreeMap.mem_keys, ← Std.TreeMap.map_fst_toList_eq_keys] at hfield ⊢
    rwa [halike.fields]
  have hlt' : i < o'.length := by
    rw [halike.length]
    exact hlt
  rw [← hs.wordAt_eq ho] at hread
  rcases hc.pointers a a' o i hmate ho hfield hlt with ht | ⟨-, hnone, -⟩
  · rw [hread] at ht
    obtain ⟨-, u, -, hu, -⟩ := hc.object _ _ ht
    exact ⟨_, ht, o', ho', hfield', hlt', (hs'.wordAt_eq ho' i).symm, by rw [hu]; rfl⟩
  · rw [hread] at hnone
    rw [hnone] at hsome
    cases hsome

/-- Corresponding fields `i` hold objects on both sides or on neither. -/
theorem holds_left (hc : h.Corresponds h' Mate) (hs : h.Sound) (hs' : h'.Sound) (hmate : Mate a a')
    (hholds : h'.Holds a' i t') : ∃ t, Mate t t' ∧ h.Holds a i t := by
  obtain ⟨o', ho', hfield', hlt', hread', hsome'⟩ := hholds
  obtain ⟨o, o₁, ho, ho₁, halike⟩ := hc.object a a' hmate
  obtain rfl := Option.some_inj.1 (ho'.symm.trans ho₁)
  have hfield : i ∈ o.fields := by
    rw [← Std.TreeMap.mem_keys, ← Std.TreeMap.map_fst_toList_eq_keys] at hfield' ⊢
    rwa [← halike.fields]
  have hlt : i < o.length := by
    rw [← halike.length]
    exact hlt'
  rw [← hs'.wordAt_eq ho'] at hread'
  rcases hc.pointers a a' o i hmate ho hfield hlt with ht | ⟨-, -, hnone⟩
  · rw [hread'] at ht
    obtain ⟨u, -, hu, -⟩ := hc.object _ _ ht
    exact ⟨_, ht, o, ho, hfield, hlt, (hs.wordAt_eq ho i).symm, by rw [hu]; rfl⟩
  · rw [hread'] at hnone
    rw [hnone] at hsome'
    cases hsome'

/-- Other words `i` of corresponding objects are the same. -/
theorem word_eq (hc : h.Corresponds h' Mate) (hs : h.Sound) (hmate : Mate a a') {o : HeapObject}
    (ho : h.object? a = some o) (hlt : i < o.length) (hnot : ∀ t, ¬h.Holds a i t) :
    h'.wordAt a' i = h.wordAt a i := by
  by_cases hfield : i ∈ o.fields
  · rcases hc.pointers a a' o i hmate ho hfield hlt with ht | ⟨hsame, -⟩
    · obtain ⟨u, -, hu, -⟩ := hc.object _ _ ht
      exact absurd ⟨o, ho, hfield, hlt, (hs.wordAt_eq ho i).symm, by rw [hu]; rfl⟩ (hnot _)
    · exact hsame
  · exact hc.others a a' o i hmate ho hfield hlt

end Heap.Corresponds

/-- Word `w` is one of `length` addresses from `bottom` on. -/
def Addr.Spans (bottom : Addr .buffer) (length : Nat) (w : Word) : Prop :=
  bottom.toNat ≤ w.toNat ∧ w.toNat < bottom.toNat + length

namespace Pairing

variable (p : Pairing)

/-- Where two buffers of `length` bytes reach into their heaps they do so alike. -/
structure Clear (length : Nat) : Prop where
  level : ∀ a a', p.Level ⟨a⟩ ⟨a'⟩ → p.bottom.Spans length a →
    p.Mate a a' ∨ p.heap.object? a = none ∧ p.heap'.object? a' = none
  mate : ∀ a a', p.Mate a a' → p.bottom.Spans length a ∨ p.bottom'.Spans length a' → p.Level ⟨a⟩ ⟨a'⟩

/-- The words `v` and `v'` lead to the same place of the used buffers, or to corresponding
    objects. -/
inductive Points (top : Nat) (v v' : Word) : Prop where
  | buffer (n : Nat) (left : v.toNat = p.bottom.toNat + n) (right : v'.toNat = p.bottom'.toNat + n)
      (low : 0 < n) (high : n < top)
  | object (mate : p.Mate v v')

end Pairing

theorem Pairing.Level.toNat {p : Pairing} {a b : Addr .buffer} (hl : p.Level a b) {n : Nat}
    (ha : a.toNat = p.bottom.toNat + n) (hb : p.bottom'.toNat ≤ b.toNat) : b.toNat = p.bottom'.toNat + n := by
  have hdistance := Addr.distance (n := b.toNat - p.bottom'.toNat) (a := b) (b := p.bottom') (by omega)
  rw [hl, Addr.distance ha] at hdistance
  omega

/-- Pointers `v` and `v'` are not null. -/
theorem Pairing.Points.ne_zero {p : Pairing} (hp : p.Fair) {top : Nat} {v v' : Word} (h : p.Points top v v') :
    v ≠ 0 ∧ v' ≠ 0 := by
  rcases h with ⟨n, hleft, hright, hlow, -⟩ | hmate
  · constructor
    · rintro rfl
      change 0 = _ at hleft
      omega
    · rintro rfl
      change 0 = _ at hright
      omega
  · obtain ⟨o, o', ho, ho', -⟩ := hp.corresponds.object _ _ hmate
    have hplace := hp.sound.toNat_place ho
    have hplace' := hp.sound'.toNat_place ho'
    have habove := hp.sound.above
    have habove' := hp.sound'.above
    constructor
    · rintro rfl
      change 0 = _ at hplace
      omega
    · rintro rfl
      change 0 = _ at hplace'
      omega

/-- Word `i` of two buffers after wiring: the same word and no pointer, null, or pointers to the
    same place. -/
inductive WiredAlike (p : Pairing) (top : Nat) (o o' : Output) (i : Nat) : Prop where
  | plain (marks : o.pointers.has i = false ∧ o'.pointers.has i = false)
      (same : o'.buffer.words.read i = o.buffer.words.read i)
  | null (zero : o.buffer.words.read i = 0 ∧ o'.buffer.words.read i = 0)
  | pointer (marks : o.pointers.has i = true ∧ o'.pointers.has i = true)
      (points : p.Points top (o.buffer.words.read i) (o'.buffer.words.read i))

/-- The sessions `s` and `s'` were wired alike. -/
structure WiredTwice (p : Pairing) (s s' : Session) (o o' : Output) : Prop where
  sound : s.Sound
  sound' : s'.Sound
  stage : s.stage = .wired
  stage' : s'.stage = .wired
  output : s.output? = some o
  output' : s'.output? = some o'
  bottom : o.buffer.bottom = p.bottom
  bottom' : o'.buffer.bottom = p.bottom'
  length : o'.buffer.length = o.buffer.length
  arena : o'.arena = o.arena
  requested : o'.requestedBottom.toNat + p.base.toNat = o.requestedBottom.toNat + p.base'.toNat
  dependency : Option.Rel (Dependency.Mates p) s.dependency? s'.dependency?
  fair : p.Fair
  clear : p.Clear o.buffer.length
  words : ∀ i, WiredAlike p o.arena.top o o' i

/-- The copies of the sessions `s` and `s'` were made alike. -/
structure LoadedAlike (p : Pairing) (tables tables' : TableProvider) (s s' : Session) (o o' : Output) :
    Prop where
  fair : p.Fair
  left : Loaded p.heap tables s o
  right : Loaded p.heap' tables' s' o'
  tables : LevelTables p tables tables'
  alike : CopiedAlike p s s'

/-- Word `i` of a copy is that of an object. -/
theorem Loaded.word_of_inCopy {h : Heap} {tables : TableProvider} {s : Session} {o : Output} {i : Nat}
    (hl : Loaded h tables s o) (hi : s.catalog.InCopy s.reservations.bottom i) :
    ∃ w e target j, s.HasCopy w e target ∧ j < e.size / wordBytes ∧ i = o.spot target + j := by
  obtain ⟨w, e, target, he, ht, j, rfl, hj⟩ := hi
  obtain ⟨v, x, hcopy, hsize⟩ := hl.copy_of_output he ht
  obtain ⟨⟨obj, -, hlength, hpos⟩, -, hplace, -⟩ := hl.copy hcopy
  have hdistance : (target.word - s.reservations.bottom.word).toNat = wordBytes * o.spot target := by
    rw [← hl.bottom]
    exact Addr.distance hplace
  refine ⟨v, x, target, j, hcopy, ?_, ?_⟩
  · rw [← hsize] at hj
    rw [hlength] at hj ⊢
    unfold wordBytes at *
    omega
  · rw [hdistance]
    unfold wordBytes
    omega

namespace LoadedAlike

variable {p : Pairing} {tables tables' : TableProvider} {s s' : Session} {o o' o₁ o₁' : Output}
  {w w' v v' : Word} {e e' : SourceEntry} {target target' : Addr .buffer} {i j : Nat}

theorem mates (hl : LoadedAlike p tables tables' s s' o o') :
    s.Mates p (s.catalog.InCopy p.bottom) s' := by
  obtain ⟨c, hm⟩ := hl.alike
  rw [hm.known]
  exact hm.toMates

theorem outputs (hl : LoadedAlike p tables tables' s s' o o') :
    o.Mates p (s.catalog.InCopy p.bottom) o' := by
  have hout := hl.mates.output
  rw [hl.left.output, hl.right.output] at hout
  rcases hout with hout | -
  exact hout

/-- Copies at level places, `target` and `target'`, start at the same word. -/
theorem spot_eq (hl : LoadedAlike p tables tables' s s' o o') (hcopy : s.HasCopy w e target)
    (hcopy' : s'.HasCopy w' e' target') (hlevel : p.Level target target') :
    o'.spot target' = o.spot target := by
  obtain ⟨-, -, hplace, -⟩ := hl.left.copy hcopy
  obtain ⟨-, -, hplace', -⟩ := hl.right.copy hcopy'
  have hdistance := Addr.distance hplace
  have hdistance' := Addr.distance hplace'
  rw [hl.outputs.bottom] at hdistance
  rw [hl.outputs.bottom'] at hdistance'
  rw [hlevel, hdistance] at hdistance'
  unfold wordBytes at *
  omega

/-- What is copied on one side, `w`, is copied on the other. -/
theorem copy_right (hl : LoadedAlike p tables tables' s s' o o') (hcopy : s.HasCopy w e target) :
    ∃ w' e' target', p.Mate w w' ∧ s'.HasCopy w' e' target' ∧ e.Mates p w w' e' ∧
      p.Level target target' ∧ o'.spot target' = o.spot target := by
  obtain ⟨w', hmate⟩ := hl.mates.catalog.mate w e hcopy.1
  have hrel := hl.mates.catalog.entries w w' hmate
  rw [hcopy.1] at hrel
  generalize he' : s'.catalog.get? w' = e?' at hrel
  rcases hrel with @⟨_, e', hentry⟩ | -
  have hout := hentry.output
  rw [hcopy.2.2] at hout
  generalize ht' : e'.output? = target?' at hout
  rcases hout with @⟨_, target', hlevel⟩ | -
  have hcopy' : s'.HasCopy w' e' target' := ⟨he', by rw [hentry.same]; exact hcopy.2.1, ht'⟩
  exact ⟨w', e', target', hmate, hcopy', hentry, hlevel, hl.spot_eq hcopy hcopy' hlevel⟩

theorem copy_left (hl : LoadedAlike p tables tables' s s' o o') (hcopy' : s'.HasCopy w' e' target') :
    ∃ w e target, p.Mate w w' ∧ s.HasCopy w e target ∧ e.Mates p w w' e' ∧
      p.Level target target' ∧ o'.spot target' = o.spot target := by
  obtain ⟨w, hmate⟩ := hl.mates.catalog.mate' w' e' hcopy'.1
  have hrel := hl.mates.catalog.entries w w' hmate
  rw [hcopy'.1] at hrel
  generalize he : s.catalog.get? w = e? at hrel
  rcases hrel with @⟨e, _, hentry⟩ | -
  have hout := hentry.output
  rw [hcopy'.2.2] at hout
  generalize ht : e.output? = target? at hout
  rcases hout with @⟨target, _, hlevel⟩ | -
  have hplain : e.isAlias = false := by
    have hsame := hcopy'.2.1
    rw [hentry.same] at hsame
    exact hsame
  have hcopy : s.HasCopy w e target := ⟨he, hplain, ht⟩
  exact ⟨w, e, target, hmate, hcopy, hentry, hlevel, hl.spot_eq hcopy hcopy' hlevel⟩

/-- The same words `i` are wired. -/
theorem mem_wireSlots (hl : LoadedAlike p tables tables' s s' o o') :
    i ∈ wireSlots s' o'.buffer.bottom ↔ i ∈ wireSlots s o.buffer.bottom := by
  have hfair := hl.fair
  rw [hl.left.mem_wireSlots, hl.right.mem_wireSlots]
  constructor
  · rintro ⟨w', e', target', j, t', hcopy', hholds', rfl⟩
    obtain ⟨w, e, target, hmate, hcopy, -, -, hspot⟩ := hl.copy_left hcopy'
    obtain ⟨t, -, hholds⟩ := hfair.corresponds.holds_left hfair.sound hfair.sound' hmate hholds'
    exact ⟨w, e, target, j, t, hcopy, hholds, by rw [hspot]⟩
  · rintro ⟨w, e, target, j, t, hcopy, hholds, rfl⟩
    obtain ⟨w', e', target', hmate, hcopy', -, -, hspot⟩ := hl.copy_right hcopy
    obtain ⟨t', -, hholds'⟩ := hfair.corresponds.holds hfair.sound hfair.sound' hmate hholds
    exact ⟨w', e', target', j, t', hcopy', hholds', by rw [hspot]⟩

/-- Words `j` of copies start out alike: with tables at level places, or with the words of
    corresponding objects. -/
theorem copiedWord_alike (hl : LoadedAlike p tables tables' s s' o o') (hcopy : s.HasCopy w e target)
    (hcopy' : s'.HasCopy w' e' target') (hentry : e.Mates p w w' e') (hlevel : p.Level target target')
    (j : Nat) :
    (copiedWord tables s.host e target j = p.heap.wordAt w j ∧
        copiedWord tables' s'.host e' target' j = p.heap'.wordAt w' j ∧
        (j = 0 → startsWithTable tables e target = false ∧ startsWithTable tables' e' target' = false)) ∨
      j = 0 ∧ ∃ table table', tables e.kind target = some table ∧ tables' e'.kind target' = some table' ∧
        p.Level table table' := by
  obtain ⟨-, hsource, -⟩ := hl.left.copy hcopy
  obtain ⟨-, hsource', -⟩ := hl.right.copy hcopy'
  have htable := hl.tables e.kind target target' hlevel
  rw [← hentry.kind] at htable
  rcases j with - | j
  · rw [hentry.kind] at htable ⊢
    generalize htable₁ : tables e.kind target = table? at htable
    generalize htable₂ : tables' e.kind target' = table?' at htable
    rcases htable with @⟨table, table', hlevel'⟩ | -
    · exact .inr ⟨rfl, table, table', rfl, rfl, hlevel'⟩
    · left
      simp only [copiedWord, startsWithTable, hentry.kind, htable₁, htable₂, hl.left.host, hl.right.host,
        hsource, hsource']
      exact ⟨rfl, rfl, fun _ => ⟨rfl, rfl⟩⟩
  · left
    simp only [copiedWord, hl.left.host, hl.right.host, hsource, hsource']
    exact ⟨rfl, rfl, fun hj => absurd hj (Nat.succ_ne_zero j)⟩

/-- Words `i` that are wired hold corresponding objects, or none that is known. -/
theorem slot_words (hl : LoadedAlike p tables tables' s s' o o') (hclear : p.Clear o.buffer.length)
    (hi : i ∈ wireSlots s o.buffer.bottom) :
    p.Mate (o.buffer.words.read i) (o'.buffer.words.read i) ∨
      s.catalog.get? (o.buffer.words.read i) = none ∧ s'.catalog.get? (o'.buffer.words.read i) = none := by
  have hfair := hl.fair
  obtain ⟨w, e, target, j, t, hcopy, hholds, rfl⟩ := hl.left.mem_wireSlots.1 hi
  obtain ⟨w', e', target', hmate, hcopy', hentry, hlevel, hspot⟩ := hl.copy_right hcopy
  obtain ⟨t', ht, hholds'⟩ := hfair.corresponds.holds hfair.sound hfair.sound' hmate hholds
  rw [hl.left.word hcopy (hl.left.field_lt hcopy hholds), ← hspot,
    hl.right.word hcopy' (hl.right.field_lt hcopy' hholds')]
  rcases hl.copiedWord_alike hcopy hcopy' hentry hlevel j with ⟨hword, hword', -⟩ |
    ⟨rfl, table, table', htable, htable', hlevel'⟩
  · obtain ⟨obj, hobj, -, -, hread, -⟩ := hholds
    obtain ⟨obj', hobj', -, -, hread', -⟩ := hholds'
    rw [hword, hword', hfair.sound.wordAt_eq hobj, hfair.sound'.wordAt_eq hobj', hread, hread']
    exact .inl ht
  · simp only [copiedWord, htable, htable']
    obtain ⟨hlow, hhigh⟩ := hl.left.table_place hcopy htable
    have hf := hl.left.sound.filled o hl.left.output
    have htop := hf.arena.top_le_length
    rw [hf.length] at htop
    rw [hl.outputs.bottom] at hlow hhigh
    rcases hclear.level table.word table'.word hlevel' ⟨Nat.le_of_lt hlow, Nat.lt_of_lt_of_le hhigh (by omega)⟩ with
      htable | ⟨hnone, hnone'⟩
    · exact .inl htable
    · exact .inr ⟨hl.left.get?_eq_none hnone, hl.right.get?_eq_none hnone'⟩

/-- Level copies at `target` and `target'` lie between the bottoms and the tops. -/
theorem points_of_copy (hl : LoadedAlike p tables tables' s s' o o') (he : s.catalog.get? w = some e)
    (ht : e.output? = some target) (he' : s'.catalog.get? w' = some e') (ht' : e'.output? = some target')
    (hlevel : p.Level target target') : p.Points o.arena.top target.word target'.word := by
  obtain ⟨v, x, hcopy, -⟩ := hl.left.copy_of_output he ht
  obtain ⟨v', x', hcopy', -⟩ := hl.right.copy_of_output he' ht'
  obtain ⟨⟨obj, -, hsize, hpos⟩, -, hplace, hlow, hhigh⟩ := hl.left.copy hcopy
  obtain ⟨-, -, hplace', -⟩ := hl.right.copy hcopy'
  rw [hl.outputs.bottom] at hplace
  rw [hl.outputs.bottom'] at hplace'
  unfold bottomPadding wordBytes at *
  exact .buffer _ hplace (hlevel.toNat hplace (by omega)) (by omega) (by omega)

/-- Level tables, `table` and `table'`, lie between the bottoms and the tops. -/
theorem points_of_table (hl : LoadedAlike p tables tables' s s' o o') (hcopy : s.HasCopy w e target)
    (hcopy' : s'.HasCopy w' e' target') {table table' : Addr .buffer}
    (htable : tables e.kind target = some table) (htable' : tables' e'.kind target' = some table')
    (hlevel : p.Level table table') : p.Points o.arena.top table.word table'.word := by
  obtain ⟨hlow, hhigh⟩ := hl.left.table_place hcopy htable
  obtain ⟨hlow', -⟩ := hl.right.table_place hcopy' htable'
  rw [hl.outputs.bottom] at hlow hhigh
  rw [hl.outputs.bottom'] at hlow'
  obtain ⟨n, hn⟩ := Nat.exists_eq_add_of_lt hlow
  exact .buffer (n + 1) hn (hlevel.toNat hn (Nat.le_of_lt hlow')) (Nat.succ_pos n) (by omega)

/-- Corresponding words `v` and `v'` are resolved on both sides, to the same place, or on neither
    side. -/
theorem resolve_alike (hl : LoadedAlike p tables tables' s s' o o')
    (hv : p.Mate v v' ∨ s.catalog.get? v = none ∧ s'.catalog.get? v' = none) :
    Agree True (fun r r' => r.word = 0 ∧ r'.word = 0 ∨ p.Points o.arena.top r.word r'.word)
      (s.catalog.resolve v) (s'.catalog.resolve v') := by
  simp only [Catalog.resolve]
  rcases hv with hmate | ⟨hnone, hnone'⟩
  · have hrel := hl.mates.catalog.entries v v' hmate
    generalize he : s.catalog.get? v = e? at hrel
    generalize he' : s'.catalog.get? v' = e?' at hrel
    rcases hrel with @⟨e, e', hentry⟩ | -
    · have hout := hentry.output
      have hsource := hentry.source
      have hsource' := hentry.source'
      simp only [Option.bind_some, SourceEntry.resolution?, hentry.disposition]
      rcases hd : e.disposition with - | - | -
      · generalize ht : e.output? = target? at hout ⊢
        generalize ht' : e'.output? = target?' at hout ⊢
        rcases hout with @⟨target, target', hlevel⟩ | -
        · exact .inr (hl.points_of_copy he ht he' ht' hlevel)
        · trivial
      · right
        simp only [Resolution.word, hsource, hsource']
        exact .object hmate
      · exact .inl ⟨rfl, rfl⟩
    · trivial
  · rw [hnone, hnone']
    trivial

/-- Pointer fields are wired alike: both become null, or both lead to the same place. -/
theorem field_alike (hl : LoadedAlike p tables tables' s s' o o') (hclear : p.Clear o.buffer.length)
    (hwired : Wired s.catalog o o₁ (wireSlots s o.buffer.bottom))
    (hwired' : Wired s'.catalog o' o₁' (wireSlots s' o'.buffer.bottom)) (hmate : p.Mate w w')
    (hcopy : s.HasCopy w e target) (hcopy' : s'.HasCopy w' e' target')
    (hspot : o'.spot target' = o.spot target) {j : Nat} {t : Word} (hholds : p.heap.Holds w j t) :
    WiredAlike p o.arena.top o₁ o₁' (o.spot target + j) := by
  have hfair := hl.fair
  obtain ⟨t', -, hholds'⟩ := hfair.corresponds.holds hfair.sound hfair.sound' hmate hholds
  obtain ⟨outcome, hout, hread, hmark⟩ := hl.left.wired_field hwired hcopy hholds
  obtain ⟨outcome', hout', hread', hmark'⟩ := hl.right.wired_field hwired' hcopy' hholds'
  rw [hspot] at hout' hread' hmark'
  have hagree := hl.resolve_alike (hl.slot_words hclear
    (hl.left.mem_wireSlots.2 ⟨w, e, target, j, t, hcopy, hholds, rfl⟩))
  rw [hout, hout'] at hagree
  rcases hagree with ⟨hzero, hzero'⟩ | hpoints
  · exact .null ⟨hread.trans hzero, hread'.trans hzero'⟩
  · obtain ⟨hne, hne'⟩ := hpoints.ne_zero hfair
    exact .pointer ⟨hmark hne, hmark' hne'⟩ (by rw [hread, hread']; exact hpoints)

/-- The other words of copies are wired alike: they are plain, or lead to the tables. -/
theorem word_alike (hl : LoadedAlike p tables tables' s s' o o')
    (hwired : Wired s.catalog o o₁ (wireSlots s o.buffer.bottom))
    (hwired' : Wired s'.catalog o' o₁' (wireSlots s' o'.buffer.bottom)) (hmate : p.Mate w w')
    (hcopy : s.HasCopy w e target) (hcopy' : s'.HasCopy w' e' target') (hentry : e.Mates p w w' e')
    (hlevel : p.Level target target') (hspot : o'.spot target' = o.spot target) {j : Nat}
    (hj : j < e.size / wordBytes) (hnot : ∀ t, ¬p.heap.Holds w j t) :
    WiredAlike p o.arena.top o₁ o₁' (o.spot target + j) := by
  have hfair := hl.fair
  have hnot' : ∀ t, ¬p.heap'.Holds w' j t := fun t ht =>
    have ⟨u, _, hu⟩ := hfair.corresponds.holds_left hfair.sound hfair.sound' hmate ht
    hnot u hu
  obtain ⟨hread, hmark⟩ := hl.left.wired_other hwired hcopy hj hnot
  obtain ⟨hread', hmark'⟩ := hl.right.wired_other hwired' hcopy' (by rw [hentry.size]; exact hj) hnot'
  rw [hspot] at hread' hmark'
  rcases hl.copiedWord_alike hcopy hcopy' hentry hlevel j with ⟨hword, hword', hplain⟩ |
    ⟨rfl, table, table', htable, htable', hlevel'⟩
  · obtain ⟨⟨obj, hobj, hsize, -⟩, -⟩ := hl.left.copy hcopy
    rw [hsize, Nat.mul_div_cancel_left _ (by decide)] at hj
    refine .plain ⟨?_, ?_⟩ ?_
    · exact Bool.eq_false_iff.2 fun hset => by
        obtain ⟨hzero, hstarts⟩ := hmark.1 hset
        rw [(hplain hzero).1] at hstarts
        cases hstarts
    · exact Bool.eq_false_iff.2 fun hset => by
        obtain ⟨hzero, hstarts⟩ := hmark'.1 hset
        rw [(hplain hzero).2] at hstarts
        cases hstarts
    · rw [hread, hread', hword, hword']
      exact hfair.corresponds.word_eq hfair.sound hmate hobj hj hnot
  · have hpoints := hl.points_of_table hcopy hcopy' htable htable' hlevel'
    obtain ⟨hne, hne'⟩ := hpoints.ne_zero hfair
    simp only [copiedWord, htable, htable'] at hread hread'
    refine .pointer ⟨hmark.2 ⟨rfl, ?_⟩, hmark'.2 ⟨rfl, ?_⟩⟩ (by rw [hread, hread']; exact hpoints)
    · simp [startsWithTable, htable, hne]
    · simp [startsWithTable, htable', hne']

/-- Every word `i` is wired alike. -/
theorem wired_alike (hl : LoadedAlike p tables tables' s s' o o') (hclear : p.Clear o.buffer.length)
    (hwired : Wired s.catalog o o₁ (wireSlots s o.buffer.bottom))
    (hwired' : Wired s'.catalog o' o₁' (wireSlots s' o'.buffer.bottom)) (i : Nat) :
    WiredAlike p o.arena.top o₁ o₁' i := by
  by_cases hin : ∃ w e target j, s.HasCopy w e target ∧ j < e.size / wordBytes ∧ i = o.spot target + j
  · obtain ⟨w, e, target, j, hcopy, hj, rfl⟩ := hin
    obtain ⟨w', e', target', hmate, hcopy', hentry, hlevel, hspot⟩ := hl.copy_right hcopy
    by_cases hholds : ∃ t, p.heap.Holds w j t
    · obtain ⟨t, hholds⟩ := hholds
      exact hl.field_alike hclear hwired hwired' hmate hcopy hcopy' hspot hholds
    · exact hl.word_alike hwired hwired' hmate hcopy hcopy' hentry hlevel hspot hj fun t ht => hholds ⟨t, ht⟩
  · obtain ⟨hread, hmark⟩ := hl.left.wired_outside hwired fun w e target j hcopy hj heq =>
      hin ⟨w, e, target, j, hcopy, hj, heq⟩
    obtain ⟨hread', hmark'⟩ := hl.right.wired_outside hwired' (i := i) fun w' e' target' j hcopy' hj heq => by
      obtain ⟨w, e, target, -, hcopy, hentry, -, hspot⟩ := hl.copy_left hcopy'
      exact hin ⟨w, e, target, j, hcopy, by rw [← hentry.size]; exact hj, by rw [← hspot]; exact heq⟩
    refine .plain ⟨hmark, hmark'⟩ ?_
    rw [hread, hread']
    refine hl.outputs.words i fun hcopied => hin ?_
    rw [← hl.mates.bottom] at hcopied
    exact hl.left.word_of_inCopy hcopied

/-- Both sessions are wired alike, or neither is wired. -/
theorem paired_wire (hl : LoadedAlike p tables tables' s s' o o') (hclear : p.Clear o.buffer.length)
    (sure : Prop) :
    Paired sure (fun t t' => t = s ∧ t' = s') wire wire fun _ _ t t' => ∃ o₁ o₁', WiredTwice p t t' o₁ o₁' := by
  refine Paired.sides hl.left.triple_wire hl.right.triple_wire ?_ ?_ ?_
  · rintro _ _ _ _ ⟨o₁, hwired, rfl, hs⟩ ⟨o₁', hwired', rfl, hs'⟩
    have hwords := hl.wired_alike hclear hwired hwired'
    rw [← hwired.room.arena] at hwords
    refine ⟨o₁, o₁', hs, hs', rfl, rfl, rfl, rfl, ?_, ?_, ?_, ?_, ?_, hl.mates.dependency, hl.fair, ?_, hwords⟩
    · rw [hwired.room.bottom, hl.outputs.bottom]
    · rw [hwired'.room.bottom, hl.outputs.bottom']
    · rw [hwired'.room.length, hwired.room.length, hl.outputs.length]
    · rw [hwired'.room.arena, hwired.room.arena, hl.outputs.arena]
    · rw [hwired'.room.requested, hwired.room.requested, hl.outputs.requested]
    · rw [hwired.room.length]
      exact hclear
  · rintro - _ _ _ _ ⟨-, i, hi, v, hv⟩ ⟨o₁', hwired', -⟩
    obtain ⟨outcome, hout, -⟩ := hwired'.words i (hl.mem_wireSlots.2 hi)
    have hagree := hl.resolve_alike (hl.slot_words hclear hi)
    rw [hv, hout] at hagree
    exact absurd trivial hagree
  · rintro - _ _ _ _ ⟨o₁, hwired, -⟩ ⟨-, i, hi, v, hv⟩
    obtain ⟨outcome, hout, -⟩ := hwired.words i (hl.mem_wireSlots.1 hi)
    have hagree := hl.resolve_alike (hl.slot_words hclear (hl.mem_wireSlots.1 hi))
    rw [hv, hout] at hagree
    exact absurd trivial hagree

end LoadedAlike

end SnapshotArchive
