import Mathlib.Tactic.Common
import SnapshotArchive.Proofs.Linking

/-!
Dispatch tables in the buffer. They are allocated one after the other before the first copy, each
entry is stored as it is, and none is marked. The kind of an object has the table of the last template
for it.
-/

namespace SnapshotArchive

namespace KindMap

variable {α : Type}

theorem lookup_place (k j : ObjectKind) (a : α) : ∀ xs : List (ObjectKind × α),
    lookup j (place k (fun _ => a) xs) = if j = k then some a else lookup j xs
  | [] => by
    change (if k = j then some a else none) = if j = k then some a else none
    by_cases h : j = k
    · rw [if_pos h.symm, if_pos h]
    · rw [if_neg (Ne.symm h), if_neg h]
  | (i, b) :: rest => by
    unfold place
    split
    · rename_i hik
      subst hik
      unfold lookup
      by_cases h : j = i
      · rw [if_pos h.symm, if_pos h]
      · rw [if_neg (Ne.symm h), if_neg h, if_neg (Ne.symm h)]
    · rename_i hik
      split
      · rw [lookup]
        by_cases h : j = k
        · rw [if_pos h.symm, if_pos h]
        · rw [if_neg (Ne.symm h), if_neg h]
      · rw [lookup, lookup, lookup_place k j a rest]
        by_cases h : i = j
        · rw [if_pos h, if_pos h, if_neg (h ▸ hik)]
        · rw [if_neg h, if_neg h]

theorem get?_insert (m : KindMap α) (k j : ObjectKind) (a : α) :
    (m.insert k a).get? j = if j = k then some a else m.get? j := lookup_place ..

end KindMap

namespace DispatchTables

/-- The tables of templates that were put at the places `placed`. -/
def ofPlaced (placed : List (DispatchTemplate × Addr .buffer)) (tables : DispatchTables) :
    DispatchTables :=
  placed.foldl (fun tables p => tables.insert p.1.kind p.2) tables

/-- The last table that was prepared for `kind`. -/
def last? (kind : ObjectKind) : List (DispatchTemplate × Addr .buffer) → Option (Addr .buffer)
  | [] => none
  | (t, table) :: rest => (last? kind rest).or (if kind = t.kind then some table else none)

theorem get?_ofPlaced (kind : ObjectKind) : ∀ (placed : List (DispatchTemplate × Addr .buffer))
    (tables : DispatchTables),
    (ofPlaced placed tables).get? kind = (last? kind placed).or (tables.get? kind)
  | [], tables => rfl
  | (t, table) :: rest, tables => by
    change (ofPlaced rest (tables.insert t.kind table)).get? kind = _
    rw [get?_ofPlaced kind rest, KindMap.get?_insert, last?]
    cases last? kind rest with
    | some a => rfl
    | none => by_cases h : kind = t.kind <;> simp [h]

theorem provider_ofPlaced (placed : List (DispatchTemplate × Addr .buffer)) (kind : ObjectKind)
    (target : Addr .buffer) : (ofPlaced placed .empty).provider kind target = last? kind placed := by
  unfold provider
  rw [get?_ofPlaced, KindMap.get?_empty, Option.or_none]

/-- The last table for `kind` is one of those that were prepared for it. -/
theorem mem_of_last? {kind : ObjectKind} {table : Addr .buffer} :
    ∀ {placed : List (DispatchTemplate × Addr .buffer)}, last? kind placed = some table →
      ∃ t, (t, table) ∈ placed ∧ t.kind = kind
  | (t, a) :: rest, h => by
    unfold last? at h
    rcases Option.or_eq_some_iff.1 h with h | ⟨-, h⟩
    · obtain ⟨u, hu, hkind⟩ := mem_of_last? h
      exact ⟨u, List.mem_cons_of_mem _ hu, hkind⟩
    · split at h
      · rename_i hkind
        cases h
        exact ⟨t, List.mem_cons_self .., hkind.symm⟩
      · cases h

end DispatchTables

namespace Output

/-- The table of a template stands at `table`, entry by entry. -/
structure HoldsTable (o : Output) (t : DispatchTemplate) (table : Addr .buffer) : Prop where
  place : table.toNat = o.buffer.bottom.toNat + wordBytes * o.spot table
  low : bottomPadding ≤ wordBytes * o.spot table
  high : wordBytes * (o.spot table + t.entries.length) ≤ o.arena.top
  entries : ∀ i w, t.entries[i]? = some w → o.buffer.words.read (o.spot table + i) = w

/-- More is allocated in `o'` than in `o`, but no word is marked. -/
structure Extended (o o' : Output) : Prop where
  grows : o.Grows o'
  marks : ∀ j, o'.pointers.has j = o.pointers.has j

variable {o o' o'' : Output}

theorem Grows.trans (h : o.Grows o') (h' : o'.Grows o'') : o.Grows o'' := by
  obtain ⟨t, hlow, hhigh, hdvd, harena⟩ := h.arena
  obtain ⟨t', hlow', hhigh', hdvd', harena'⟩ := h'.arena
  rw [harena] at hlow' hhigh' harena'
  rw [Arena.top_advance] at hlow'
  rw [Arena.currentRegion_advance] at hhigh'
  rw [Arena.advance_advance] at harena'
  have htop : ∀ j, 8 * j < o.arena.top → 8 * j < o'.arena.top := fun j hj => by
    rw [harena, Arena.top_advance]
    exact Nat.lt_of_lt_of_le hj hlow
  exact ⟨⟨t', Nat.le_trans hlow hlow', hhigh', hdvd', harena'⟩, h'.bottom.trans h.bottom,
    h'.length.trans h.length, h'.requested.trans h.requested, h'.meter.trans h.meter,
    h'.advisories.trans h.advisories,
    fun j hj => (h'.words j (htop j hj)).trans (h.words j hj),
    fun j hj => (h'.marks j (htop j hj)).trans (h.marks j hj)⟩

theorem Extended.refl (ha : o.arena.Sound) : o.Extended o :=
  ⟨⟨⟨o.arena.top, Nat.le_refl _, ha.top_le_limit, ha.dvd_top, (Arena.advance_top _).symm⟩, rfl, rfl, rfl,
    rfl, rfl, fun _ _ => rfl, fun _ _ => rfl⟩, fun _ => rfl⟩

theorem Extended.trans (h : o.Extended o') (h' : o'.Extended o'') : o.Extended o'' :=
  ⟨h.grows.trans h'.grows, fun j => (h'.marks j).trans (h.marks j)⟩

theorem spot_congr (hbottom : o'.buffer.bottom = o.buffer.bottom) (a : Addr .buffer) :
    o'.spot a = o.spot a := by
  unfold spot
  rw [hbottom]

/-- A `table` that was put below the top of `o` stays. -/
theorem HoldsTable.grows {t : DispatchTemplate} {table : Addr .buffer} (h : o.HoldsTable t table)
    (hgrows : o.Grows o') : o'.HoldsTable t table := by
  obtain ⟨top, hlow, -, -, harena⟩ := hgrows.arena
  have hspot := spot_congr hgrows.bottom table
  refine ⟨?_, ?_, ?_, fun i w hi => ?_⟩
  · rw [hspot, hgrows.bottom]
    exact h.place
  · rw [hspot]
    exact h.low
  · rw [hspot, harena, Arena.top_advance]
    exact Nat.le_trans h.high hlow
  · have hlt := (List.getElem?_eq_some_iff.1 hi).1
    have hhigh := h.high
    rw [hspot, hgrows.words _ (by unfold wordBytes at hhigh; omega)]
    exact h.entries i w hi

end Output

namespace SessionM

open Session

variable {s : Session} {o : Output}

theorem triple_writeWord (ho : s.output? = some o) (slot : Addr .buffer) (w : Word) :
    Triple (· = s) (writeWord slot w)
      (fun _ s' => ∃ n, o.buffer.slotOffset slot = .ok n ∧
        s' = { s with output? := some (o.write n w) })
      (fun _ _ => True) := by
  rintro r rfl
  unfold writeWord
  rw [wp_bind, wp_openOutput, ho]
  dsimp only
  split
  · rw [wp_bind, wp_ofViolation]
    cases hn : o.buffer.slotOffset slot with
    | error v => trivial
    | ok n =>
      dsimp only
      rw [wp_changeOutput, ho]
      exact ⟨n, rfl, rfl⟩
  · trivial

/-- The entries `done` of a table are stored in `words` from `start` on. -/
structure Stored (o : Output) (start : Nat) (done : List (Word × Nat)) (words : Words) : Prop where
  below : ∀ j < start, words.read j = o.buffer.words.read j
  entries : ∀ p ∈ done, words.read (start + p.2) = p.1

/-- One more entry `w` is stored, where none but the same one was before. -/
theorem Stored.snoc {start i : Nat} {done : List (Word × Nat)} {words : Words} {w : Word}
    (h : Stored o start done words) (hagree : ∀ v, (v, i) ∈ done → v = w) :
    Stored o start (done ++ [(w, i)]) (words.write (start + i) w) := by
  have hread : ∀ j, (words.write (start + i) w).read j = if start + i = j then w else words.read j :=
    fun j => Words.read_write ..
  refine ⟨fun j hj => ?_, fun p hp => ?_⟩
  · rw [hread, if_neg (by omega)]
    exact h.below j hj
  · rw [hread]
    rcases List.mem_append.1 hp with hp | hp
    · split
      · rename_i heq
        obtain ⟨v, j⟩ := p
        obtain rfl : i = j := Nat.add_left_cancel heq
        exact (hagree v hp).symm
      · exact h.entries p hp
    · obtain rfl := List.mem_singleton.1 hp
      exact if_pos rfl

/-- The slot of entry `i` is word `start + i`; its address is not around the end of the address
    space. -/
theorem index_of_entry {start i n : Nat} {table : Addr .buffer}
    (hplace : table.toNat = o.buffer.bottom.toNat + wordBytes * start)
    (hroom : wordBytes * (start + i) ≤ o.buffer.length)
    (hn : o.buffer.slotOffset ⟨table.word.plus (i * wordBytes)⟩ = .ok n) : n / wordBytes = start + i := by
  have hfits := o.buffer.fits
  have htoNat : (table.word.plus (i * wordBytes)).toNat = table.toNat + i * wordBytes := by
    refine Word.toNat_plus ?_
    change table.toNat + _ < _
    unfold wordBytes at *
    omega
  have hslot := (Buffer.slotOffset_eq_ok_iff.1 hn).1
  change (table.word.plus (i * wordBytes)).toNat = o.buffer.bottom.toNat + n at hslot
  unfold wordBytes at *
  omega

/-- The `entries` of a table are stored in words that were allocated for it. -/
theorem triple_writeEntries (start : Nat) (entries : List Word) (ho : s.output? = some o)
    {table : Addr .buffer} (hplace : table.toNat = o.buffer.bottom.toNat + wordBytes * start)
    (hroom : wordBytes * (start + entries.length) ≤ o.buffer.length) :
    Triple (· = s)
      (entries.zipIdx.forM fun p => writeWord ⟨table.word.plus (p.2 * wordBytes)⟩ p.1)
      (fun _ s' => ∃ words, Stored o start entries.zipIdx words ∧
        s' = { s with output? := some { o with buffer := { o.buffer with words := words } } })
      (fun _ _ => True) := by
  -- the loop invariant: the entries that were `done` are stored, and the rest is to come
  let I (rest : List (Word × Nat)) (s' : Session) : Prop := ∃ done words,
    done ++ rest = entries.zipIdx ∧ Stored o start done words ∧
      s' = { s with output? := some { o with buffer := { o.buffer with words := words } } }
  have hstep : ∀ p rest, Triple (I (p :: rest)) (writeWord ⟨table.word.plus (p.2 * wordBytes)⟩ p.1)
      (fun _ => I rest) (fun _ _ => True) := by
    rintro ⟨w, i⟩ rest r ⟨done, words, hsplit, hstored, hr⟩
    have hentry : entries[i]? = some w := by
      refine (List.mem_zipIdx_iff_getElem? (x := (w, i))).1 ?_
      rw [← hsplit]
      simp
    have hi := (List.getElem?_eq_some_iff.1 hentry).1
    refine (triple_writeWord (o := { o with buffer := { o.buffer with words := words } }) (by rw [hr])
      _ w).use rfl ?_ fun _ _ _ => trivial
    rintro _ r' ⟨n, hn, hr'⟩
    have hindex := index_of_entry (i := i) hplace
      (Nat.le_trans (Nat.mul_le_mul_left _ (by omega)) hroom) hn
    refine ⟨done ++ [(w, i)], words.write (n / wordBytes) w, by rw [List.append_assoc]; exact hsplit, ?_,
      by rw [hr', hr]; rfl⟩
    rw [hindex]
    refine hstored.snoc fun v hv => ?_
    have hv : entries[i]? = some v :=
      (List.mem_zipIdx_iff_getElem? (x := (v, i))).1 (hsplit ▸ List.mem_append_left _ hv)
    exact Option.some_inj.1 (hv.symm.trans hentry)
  refine (Triple.forM hstep entries.zipIdx).conseq ?_ ?_ fun _ _ h => h
  · rintro s' rfl
    exact ⟨[], o.buffer.words, rfl, ⟨fun _ _ => rfl, nofun⟩, by rw [← ho]⟩
  · rintro _ s' ⟨done, words, hsplit, hstored, rfl⟩
    rw [List.append_nil] at hsplit
    exact ⟨words, hsplit ▸ hstored, rfl⟩

/-- The session `s` with more allocated in its output, in `o'`. -/
def ExtendedTo (s : Session) (o o' : Output) (s' : Session) : Prop :=
  o.Extended o' ∧ ∃ stats, s' = { s with output? := some o', stats := stats }

theorem triple_prepareTable (ho : s.output? = some o) (ha : o.arena.Sound)
    (hlength : o.arena.length = o.buffer.length) (t : DispatchTemplate) :
    Triple (· = s) (prepareTable t)
      (fun table s' => ∃ o', ExtendedTo s o o' s' ∧ o'.HoldsTable t table) (fun _ _ => True) := by
  rintro r rfl
  unfold prepareTable
  rw [wp_bind]
  refine (triple_allocateOther (s := r.session) (fun o₁ ho₁ => by rw [ho] at ho₁; cases ho₁; exact ⟨ha, hlength⟩)
    _).use rfl ?_ fun _ _ _ => trivial
  rintro table r₁ ⟨-, o₁, top, stats, ho₁, rfl, -, hlow, hhigh, hdvd, hr₁⟩
  obtain rfl : o = o₁ := Option.some_inj.1 (ho.symm.trans ho₁)
  have hin : top ≤ o.buffer.length := by
    have := ha.limit_le_length
    omega
  have hstart : o.arena.top = wordBytes * (o.arena.top / wordBytes) := by
    have := ha.dvd_top
    unfold wordBytes
    omega
  have hplace : (o.buffer.addrAt o.arena.top).toNat = o.buffer.bottom.toNat + o.arena.top :=
    Buffer.toNat_addrAt (by omega)
  rw [wp_bind]
  refine (triple_writeEntries (s := r₁.session) (o := { o with arena := o.arena.advance top })
    (o.arena.top / wordBytes) t.entries (by rw [hr₁]) (hplace.trans (by rw [← hstart]))
    (by unfold wordBytes at *; dsimp only; omega)).use rfl ?_ fun _ _ _ => trivial
  rintro _ r₂ ⟨words, hstored, hr₂⟩
  rw [wp_bind, wp_tell, wp_pure]
  let o' : Output := { o with arena := o.arena.advance top, buffer := { o.buffer with words := words } }
  have hspot : o'.spot (o.buffer.addrAt o.arena.top) = o.arena.top / wordBytes := by
    change ((o.buffer.addrAt o.arena.top).toNat - o.buffer.bottom.toNat) / wordBytes = _
    rw [hplace, Nat.add_sub_cancel_left]
  refine ⟨o', ⟨⟨⟨⟨top, by omega, hhigh, hdvd, rfl⟩, rfl, rfl, rfl, rfl, rfl, fun j hj => ?_, fun _ _ => rfl⟩,
    fun _ => rfl⟩, stats, by change r₂.session = _; rw [hr₂, hr₁]⟩, ?_, ?_, ?_, fun i w hi => ?_⟩
  · exact hstored.below j (by unfold wordBytes at *; omega)
  · rw [hspot, hplace, ← hstart]
  · rw [hspot, ← hstart]
    exact ha.padding_le_top
  · rw [hspot]
    change _ ≤ (o.arena.advance top).top
    rw [Arena.top_advance]
    unfold wordBytes at *
    omega
  · rw [hspot]
    exact hstored.entries (w, i) (List.mem_zipIdx_iff_getElem?.2 hi)

/-- Preparing tables of `templates` puts each of them into the buffer and marks nothing. -/
theorem triple_prepareTables {s : Session} {o : Output} (ho : s.output? = some o) (ha : o.arena.Sound)
    (hlength : o.arena.length = o.buffer.length) (templates : List DispatchTemplate) :
    Triple (· = s) (prepareTables templates)
      (fun tables s' => ∃ o' placed, ExtendedTo s o o' s' ∧ placed.map (·.1) = templates ∧
        tables = .ofPlaced placed .empty ∧ ∀ p ∈ placed, o'.HoldsTable p.1 p.2)
      (fun _ _ => True) := by
  let I (placed : List (DispatchTemplate × Addr .buffer)) (s' : Session) : Prop :=
    ∃ o', ExtendedTo s o o' s' ∧ ∀ p ∈ placed, o'.HoldsTable p.1 p.2
  -- on the templates that remain, the tables `before` them being in place
  have hloop : ∀ (templates : List DispatchTemplate) (tables : DispatchTables) (before :
      List (DispatchTemplate × Addr .buffer)), Triple (I before)
        (templates.foldlM (fun tables t => do return tables.insert t.kind (← prepareTable t)) tables)
        (fun tables' s' => ∃ placed, placed.map (·.1) = templates ∧ tables' = .ofPlaced placed tables ∧
          I (before ++ placed) s') (fun _ _ => True) := by
    intro templates
    induction templates with
    | nil =>
      intro tables before r hr
      exact ⟨[], rfl, rfl, by rw [List.append_nil]; exact hr⟩
    | cons t rest ih =>
      intro tables before
      rw [List.foldlM_cons]
      refine Triple.bind (Q := fun tables' s' => ∃ table, tables' = tables.insert t.kind table ∧
        I (before ++ [(t, table)]) s') ?_ fun tables' => ?_
      · rintro r ⟨o₁, ⟨hext, stats, hr⟩, hholds⟩
        obtain ⟨top, hlow, hhigh, hdvd, harena⟩ := hext.grows.arena
        have ha₁ : o₁.arena.Sound := by
          rw [harena]
          exact ha.advance hlow hhigh hdvd
        have hlength₁ : o₁.arena.length = o₁.buffer.length := by
          rw [harena, Arena.length_advance, hlength, hext.grows.length]
        rw [wp_bind]
        refine (triple_prepareTable (s := r.session) (o := o₁) (by rw [hr]) ha₁ hlength₁ t).use rfl ?_
          fun _ _ _ => trivial
        rintro table r₁ ⟨o₂, ⟨hext₂, stats₂, hr₁⟩, htable⟩
        refine ⟨table, rfl, o₂, ⟨hext.trans hext₂, stats₂, by rw [hr₁, hr]⟩, fun p hp => ?_⟩
        rcases List.mem_append.1 hp with hp | hp
        · exact (hholds p hp).grows hext₂.grows
        · obtain rfl := List.mem_singleton.1 hp
          exact htable
      · rintro r ⟨table, rfl, hr⟩
        refine (ih _ (before ++ [(t, table)])).use hr ?_ fun _ _ _ => trivial
        rintro tables' r' ⟨placed, hmap, htables, hI⟩
        exact ⟨(t, table) :: placed, by rw [List.map_cons, hmap], htables, by
          rw [List.append_cons]; exact hI⟩
  refine (hloop templates .empty []).conseq ?_ ?_ fun _ _ h => h
  · rintro s' rfl
    exact ⟨o, ⟨.refl ha, s'.stats, by rw [← ho]⟩, nofun⟩
  · rintro tables s' ⟨placed, hmap, htables, o', hext, hholds⟩
    exact ⟨o', placed, hext, hmap, htables, hholds⟩

end SessionM

end SnapshotArchive
