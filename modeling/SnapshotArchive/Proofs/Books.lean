import SnapshotArchive.Proofs.Allocation
import SnapshotArchive.Proofs.Traversal
import SnapshotArchive.Session.Discovery

/-!
The books of a session: the catalog with the two lists of objects to copy and the objects that were
replaced. Gathering changes them by a few steps, one for each outcome of a report. On any host these
steps keep the books in agreement: an entry stands at its own address, and the objects that are copied
are on exactly the list of their region, once.
-/

namespace SnapshotArchive

/-- The catalog, the lists and the replaced objects of a session. -/
structure Books where
  catalog : Catalog
  mutableList : CopyList
  readOnlyList : CopyList
  replaced : Array Word

namespace Books

/-- The list of the region `kind` of `b`. -/
def list (b : Books) : RegionKind → CopyList
  | .mutable => b.mutableList
  | .readOnly => b.readOnlyList

/-- The addresses of the objects of the region `kind`, in the order they are copied. -/
def sources (b : Books) (kind : RegionKind) : List Word := (b.list kind).sources.toList

/-- The catalog and the lists of `b` agree. -/
structure Kept (b : Books) : Prop where
  keyed : ∀ w e, b.catalog.get? w = some e → e.source = w
  nodup : ∀ kind, (b.sources kind).Nodup
  listed : ∀ kind, ∀ w ∈ b.sources kind, ∃ e, b.catalog.get? w = some e ∧ e.isCopied = true ∧
    e.isAlias = false ∧ RegionKind.ofReadOnly e.readOnly = kind
  enlisted : ∀ w e, b.catalog.get? w = some e → e.isCopied = true → e.isAlias = false →
    w ∈ b.sources (.ofReadOnly e.readOnly)
  copied : ∀ w e, b.catalog.get? w = some e → e.output?.isSome = true → e.isCopied = true

/-- Nothing found yet. -/
def empty : Books := ⟨.empty, .empty, .empty, #[]⟩

theorem sources_empty (kind : RegionKind) : empty.sources kind = [] := by cases kind <;> rfl

theorem kept_empty : empty.Kept where
  keyed w e h := by rw [show empty.catalog = .empty from rfl, Catalog.get?_empty] at h; cases h
  nodup kind := by rw [sources_empty]; exact List.nodup_nil
  listed kind w h := by rw [sources_empty] at h; cases h
  enlisted w e h := by rw [show empty.catalog = .empty from rfl, Catalog.get?_empty] at h; cases h
  copied w e h := by rw [show empty.catalog = .empty from rfl, Catalog.get?_empty] at h; cases h

namespace Kept

variable {b b' : Books} {e e' : SourceEntry}

/-- Only entries and sources count: `b'` is kept if it has those of `b`. -/
theorem congr (h : b.Kept) (hsources : ∀ kind, b'.sources kind = b.sources kind)
    (hcatalog : ∀ w, b'.catalog.get? w = b.catalog.get? w) : b'.Kept where
  keyed w e he := h.keyed w e ((hcatalog w).symm.trans he)
  nodup kind := by rw [hsources]; exact h.nodup kind
  listed kind w hw := by
    rw [hsources] at hw
    obtain ⟨e, he, hrest⟩ := h.listed kind w hw
    exact ⟨e, (hcatalog w).trans he, hrest⟩
  enlisted w e he := by rw [hsources]; exact h.enlisted w e ((hcatalog w).symm.trans he)
  copied w e he := h.copied w e ((hcatalog w).symm.trans he)

/-- An entry `e` is replaced by `e'` of the same object, with the same fate; the lists keep their
    objects. -/
theorem revise (h : b.Kept) (e' : SourceEntry) (he : b.catalog.get? e'.source = some e)
    (hsources : ∀ kind, b'.sources kind = b.sources kind)
    (hcatalog : ∀ w, b'.catalog.get? w = if e'.source = w then some e' else b.catalog.get? w)
    (hdisposition : e'.disposition = e.disposition) (hregion : e'.readOnly = e.readOnly)
    (halias : e'.isAlias = e.isAlias) (hout : e'.output?.isSome = true → e'.isCopied = true) :
    b'.Kept := by
  have hcopied : e'.isCopied = e.isCopied := by unfold SourceEntry.isCopied; rw [hdisposition]
  refine ⟨?_, ?_, ?_, ?_, ?_⟩
  · intro w x hx
    rw [hcatalog] at hx
    split at hx
    · rename_i hw; cases hx; exact hw
    · exact h.keyed w x hx
  · intro kind
    rw [hsources]
    exact h.nodup kind
  · intro kind w hw
    rw [hsources] at hw
    obtain ⟨x, hx, hc, ha, hk⟩ := h.listed kind w hw
    by_cases hew : e'.source = w
    · obtain rfl : e = x := by rw [hew, hx] at he; exact (Option.some_inj.1 he).symm
      exact ⟨e', by rw [hcatalog, if_pos hew], hcopied ▸ hc, halias ▸ ha, hregion ▸ hk⟩
    · exact ⟨x, by rw [hcatalog, if_neg hew]; exact hx, hc, ha, hk⟩
  · intro w x hx hc ha
    rw [hcatalog] at hx
    rw [hsources]
    split at hx
    · rename_i hew
      cases hx
      rw [hregion]
      exact h.enlisted w e (hew ▸ he) (hcopied ▸ hc) (halias ▸ ha)
    · exact h.enlisted w x hx hc ha
  · intro w x hx ho
    rw [hcatalog] at hx
    split at hx
    · cases hx; exact hout ho
    · exact h.copied w x hx ho

/-- An entry `e` that is not copied, or that stands in for another object, is added. -/
theorem enter (h : b.Kept) (hnew : b.catalog.get? e.source = none)
    (hsources : ∀ kind, b'.sources kind = b.sources kind)
    (hcatalog : ∀ w, b'.catalog.get? w = if e.source = w then some e else b.catalog.get? w)
    (hfate : e.isCopied = true → e.isAlias = true)
    (hout : e.output?.isSome = true → e.isCopied = true) : b'.Kept := by
  refine ⟨?_, ?_, ?_, ?_, ?_⟩
  · intro w x hx
    rw [hcatalog] at hx
    split at hx
    · rename_i hw; cases hx; exact hw
    · exact h.keyed w x hx
  · intro kind
    rw [hsources]
    exact h.nodup kind
  · intro kind w hw
    rw [hsources] at hw
    obtain ⟨x, hx, hrest⟩ := h.listed kind w hw
    have hew : e.source ≠ w := by rintro rfl; rw [hnew] at hx; cases hx
    exact ⟨x, by rw [hcatalog, if_neg hew]; exact hx, hrest⟩
  · intro w x hx hc ha
    rw [hcatalog] at hx
    rw [hsources]
    split at hx
    · cases hx; rw [hfate hc] at ha; cases ha
    · exact h.enlisted w x hx hc ha
  · intro w x hx ho
    rw [hcatalog] at hx
    split at hx
    · cases hx; exact hout ho
    · exact h.copied w x hx ho

/-- An entry `e` of an object that is copied is added and put on the list of its region. -/
theorem enlist (h : b.Kept) (hnew : b.catalog.get? e.source = none)
    (hsources : ∀ kind, b'.sources kind =
      b.sources kind ++ if RegionKind.ofReadOnly e.readOnly = kind then [e.source] else [])
    (hcatalog : ∀ w, b'.catalog.get? w = if e.source = w then some e else b.catalog.get? w)
    (hcopied : e.isCopied = true) (halias : e.isAlias = false) : b'.Kept := by
  have hfresh : ∀ kind, e.source ∉ b.sources kind := by
    intro kind hw
    obtain ⟨x, hx, -⟩ := h.listed kind _ hw
    rw [hnew] at hx
    cases hx
  refine ⟨?_, ?_, ?_, ?_, ?_⟩
  · intro w x hx
    rw [hcatalog] at hx
    split at hx
    · rename_i hw; cases hx; exact hw
    · exact h.keyed w x hx
  · intro kind
    rw [hsources]
    split
    · exact List.nodup_append.2 ⟨h.nodup kind, by simp, by
        rintro a ha c hc rfl
        exact hfresh kind (List.mem_singleton.1 hc ▸ ha)⟩
    · rw [List.append_nil]; exact h.nodup kind
  · intro kind w hw
    rw [hsources, List.mem_append] at hw
    rcases hw with hw | hw
    · obtain ⟨x, hx, hrest⟩ := h.listed kind w hw
      have hew : e.source ≠ w := by rintro rfl; rw [hnew] at hx; cases hx
      exact ⟨x, by rw [hcatalog, if_neg hew]; exact hx, hrest⟩
    · split at hw
      · rename_i hk
        rw [List.mem_singleton] at hw
        exact ⟨e, by rw [hcatalog, if_pos hw.symm], hcopied, halias, hk⟩
      · cases hw
  · intro w x hx hc ha
    rw [hcatalog] at hx
    rw [hsources, List.mem_append]
    split at hx
    · rename_i hew
      cases hx
      right
      rw [if_pos rfl, List.mem_singleton]
      exact hew.symm
    · exact Or.inl (h.enlisted w x hx hc ha)
  · intro w x hx ho
    rw [hcatalog] at hx
    split at hx
    · cases hx; exact hcopied
    · exact h.copied w x hx ho

end Kept

end Books

namespace Session

/-- The books of a session. -/
def books (s : Session) : Books := ⟨s.catalog, s.mutableList, s.readOnlyList, s.replaced⟩

@[simp] theorem books_catalog (s : Session) : s.books.catalog = s.catalog := rfl

@[simp] theorem books_list (s : Session) (kind : RegionKind) : s.books.list kind = s.copyList kind := by
  cases kind <;> rfl

/-- The session `s` with books `b` instead of its own. -/
def withBooks (s : Session) (b : Books) : Session :=
  { s with
    catalog := b.catalog
    mutableList := b.mutableList
    readOnlyList := b.readOnlyList
    replaced := b.replaced }

/-- The session `s` with a new `entry` of an object. -/
def withEntry (s : Session) (entry : SourceEntry) : Session :=
  { s with catalog := s.catalog.put entry }

@[simp] theorem withEntry_catalog (s : Session) (e : SourceEntry) :
    (s.withEntry e).catalog = s.catalog.put e := rfl

@[simp] theorem withEntry_copyList (s : Session) (e : SourceEntry) (kind : RegionKind) :
    (s.withEntry e).copyList kind = s.copyList kind := by cases kind <;> rfl

/-- The session `s` with a new `entry` of an object whose field was noted, and the list `l` with its
    bit. -/
def revised (s : Session) (kind : RegionKind) (l : CopyList) (entry : SourceEntry) : Session :=
  { s with catalog := s.catalog.put entry }.changeList kind fun _ => l

/-- The session `s` with the object of `entry` on the list of its region. -/
def accepted (s : Session) (entry : SourceEntry) : Session :=
  let kind := RegionKind.ofReadOnly entry.readOnly
  s.revised kind ((s.copyList kind).accept entry) ((s.copyList kind).listed entry)

/-- The session `s` with `w` noted as replaced, once. -/
def withReplaced (s : Session) (w : Word) : Session :=
  if s.replaced.contains w then s else { s with replaced := s.replaced.push w }

@[simp] theorem withReplaced_catalog (s : Session) (w : Word) :
    (s.withReplaced w).catalog = s.catalog := by
  unfold withReplaced
  split <;> rfl

/-- The entry of `e.pointee`, when the reference `e` is the first to lead there. -/
def foundEntry (s : Session) (e : Edge) : SourceEntry :=
  .found e.pointee (s.classify e) e.kind e.size e.readOnly

@[simp] theorem revised_catalog (s : Session) (kind : RegionKind) (l : CopyList) (e : SourceEntry) :
    (s.revised kind l e).catalog = s.catalog.put e := by cases kind <;> rfl

@[simp] theorem revised_replaced (s : Session) (kind : RegionKind) (l : CopyList) (e : SourceEntry) :
    (s.revised kind l e).replaced = s.replaced := by cases kind <;> rfl

theorem revised_frame (s : Session) (kind : RegionKind) (l : CopyList) (e : SourceEntry) :
    s.revised kind l e = s.withBooks (s.revised kind l e).books := by cases kind <;> rfl

theorem revised_copyList (s : Session) (kind k : RegionKind) (l : CopyList) (e : SourceEntry) :
    (s.revised kind l e).copyList k = if kind = k then l else s.copyList k := by
  cases kind <;> cases k <;> rfl

@[simp] theorem accepted_catalog (s : Session) (e : SourceEntry) :
    (s.accepted e).catalog =
      s.catalog.put ((s.copyList (.ofReadOnly e.readOnly)).listed e) := revised_catalog ..

theorem accepted_copyList (s : Session) (e : SourceEntry) (k : RegionKind) :
    (s.accepted e).copyList k =
      if RegionKind.ofReadOnly e.readOnly = k then (s.copyList k).accept e else s.copyList k := by
  unfold accepted
  rw [revised_copyList]
  split
  · rename_i h; rw [h]
  · rfl

/-- The session `s` with a new `entry` of an object that is copied, on the list of its region. -/
def enlisted (s : Session) (entry : SourceEntry) : Session := (s.withEntry entry).accepted entry

theorem enlisted_get? (s : Session) (e : SourceEntry) (w : Word) :
    (s.enlisted e).catalog.get? w =
      if e.source = w then some ((s.copyList (.ofReadOnly e.readOnly)).listed e)
      else s.catalog.get? w := by
  unfold enlisted
  rw [accepted_catalog, Catalog.get?_put, withEntry_copyList, withEntry_catalog, Catalog.get?_put]
  change (if e.source = w then _ else _) = _
  by_cases h : e.source = w
  · rw [if_pos h, if_pos h]
  · rw [if_neg h, if_neg h, if_neg h]

theorem enlisted_copyList (s : Session) (e : SourceEntry) (k : RegionKind) :
    (s.enlisted e).copyList k =
      if RegionKind.ofReadOnly e.readOnly = k then (s.copyList k).accept e else s.copyList k := by
  unfold enlisted
  rw [accepted_copyList, withEntry_copyList]

end Session

namespace SessionM

open Session

/-- What noting the field of the reference `e` does to `s`. -/
inductive NoteStep (s : Session) (e : Edge) : Session → Prop where
  /-- A root has no field, and fields of objects that are not copied are not noted. -/
  | ignored (h : ∀ place, e.origin? = some place → ∀ entry,
      s.catalog.get? place.enclosing = some entry → entry.isCopied = false) : NoteStep s e s
  | marked {place : FieldRef} {entry entry' : SourceEntry} {l : CopyList}
      (origin : e.origin? = some place) (found : s.catalog.get? place.enclosing = some entry)
      (copied : entry.isCopied = true)
      (mark : (s.copyList (.ofReadOnly entry.readOnly)).markField entry place.field =
        .ok (l, entry')) :
      NoteStep s e (s.revised (.ofReadOnly entry.readOnly) l entry')

/-- Why noting the field of the reference `e` fails with `f`. -/
def NoteFault (s : Session) (e : Edge) (f : Failure) : Prop :=
  ∃ place entry, e.origin? = some place ∧ s.catalog.get? place.enclosing = some entry ∧
    entry.isCopied = true ∧
    (s.copyList (.ofReadOnly entry.readOnly)).markField entry place.field = .error f

theorem triple_noteField (s : Session) (e : Edge) :
    Triple (· = s) (noteField e) (fun _ => NoteStep s e)
      (fun f s' => s' = s ∧ NoteFault s e f) := by
  rintro r rfl
  unfold noteField
  cases ho : e.origin? with
  | none => exact .ignored fun place h => by rw [ho] at h; cases h
  | some place =>
    simp only [wp_bind, wp_session]
    cases he : r.session.catalog.get? place.enclosing with
    | none =>
      refine .ignored fun place' h entry h' => ?_
      obtain rfl : place = place' := by rw [ho] at h; exact Option.some_inj.1 h
      rw [he] at h'
      cases h'
    | some entry =>
      dsimp only
      split
      · rename_i hcopied
        rw [wp_bind, wp_ofFailure]
        cases hm : (r.session.copyList (.ofReadOnly entry.readOnly)).markField entry place.field with
        | error f => exact ⟨rfl, place, entry, ho, he, hcopied, hm⟩
        | ok p => exact .marked ho he hcopied hm
      · rename_i hcopied
        refine .ignored fun place' h entry' h' => ?_
        obtain rfl : place = place' := by rw [ho] at h; exact Option.some_inj.1 h
        obtain rfl : entry = entry' := by rw [he] at h'; exact Option.some_inj.1 h'
        exact Bool.eq_false_iff.2 hcopied

/-- What entering `e.pointee` does to `s`, and whether the object is looked into. -/
inductive EnterStep (s : Session) (e : Edge) : Visit → Session → Prop where
  | replaced (sub : s.host.hasSubstitute e.pointee = true) :
      EnterStep s e .skip (s.withReplaced e.pointee)
  | known {entry : SourceEntry} (plain : s.host.hasSubstitute e.pointee = false)
      (found : s.catalog.get? e.pointee = some entry) (same : entry.readOnly = e.readOnly) :
      EnterStep s e .skip s
  | left (plain : s.host.hasSubstitute e.pointee = false) (new : s.catalog.get? e.pointee = none)
      (fate : s.classify e ≠ .copy) :
      EnterStep s e .skip (s.withEntry (s.foundEntry e))
  | accepted (plain : s.host.hasSubstitute e.pointee = false)
      (new : s.catalog.get? e.pointee = none) (fate : s.classify e = .copy) :
      EnterStep s e .recurse (s.enlisted (s.foundEntry e))

/-- The failure `f` of a reference `e` to an object for one region that was entered for the
    other. -/
def Conflict (s : Session) (e : Edge) (f : Failure) : Prop :=
  ∃ entry, s.catalog.get? e.pointee = some entry ∧ entry.readOnly ≠ e.readOnly ∧
    f = .error (.invariant (.inconsistentMutability e.pointee))

theorem add_new {c : Catalog} {e : SourceEntry} (h : c.get? e.source = none) :
    c.add e = (c.put e, true) := by
  unfold Catalog.add
  rw [h]

theorem add_known {c : Catalog} {e e' : SourceEntry} (h : c.get? e.source = some e') :
    c.add e = (c, false) := by
  unfold Catalog.add
  rw [h]

theorem wp_acceptEntry (e : SourceEntry) {Q : Unit → Run → Prop} {E : Failure → Run → Prop}
    {r : Run} : (acceptEntry e).wp Q E r = Q () { r with session := r.session.accepted e } := by
  unfold acceptEntry
  rw [wp_update]
  unfold accepted revised
  cases RegionKind.ofReadOnly e.readOnly <;> rfl

/-- An event that is told first, if `c`, changes nothing of the session. -/
theorem wp_told_if {α : Type} {Q : α → Run → Prop} {E : Failure → Run → Prop} {r : Run} {c : Prop}
    [Decidable c] {ev : Event} {k : SessionM α} (h : ∀ r', r'.session = r.session → k.wp Q E r') :
    (if c then tell ev >>= fun _ => k else k).wp Q E r := by
  split
  · exact h { r with events := r.events.push ev } rfl
  · exact h r rfl

/-- What reporting `e` does: its field is noted in `s₁`, then `e.pointee` is entered. -/
theorem triple_registerEdge (s : Session) (e : Edge) :
    Triple (· = s) (registerEdge e) (fun v s' => ∃ s₁, NoteStep s e s₁ ∧ EnterStep s₁ e v s')
      (fun f s' => (s' = s ∧ NoteFault s e f) ∨ (NoteStep s e s' ∧ Conflict s' e f)) := by
  unfold registerEdge
  refine Triple.bind (Triple.conseq (triple_noteField s e) (fun _ h => h) (fun _ _ h => h)
    fun _ _ h => Or.inl h) fun _ => ?_
  intro r hnote
  simp only [wp_bind, wp_session]
  split
  · rename_i hsub
    have hstep : EnterStep r.session e .skip (r.session.withReplaced e.pointee) := .replaced hsub
    unfold withReplaced at hstep
    by_cases hc : r.session.replaced.contains e.pointee = true
    · rw [if_pos hc] at hstep
      simp only [hc, Bool.not_true, Bool.false_eq_true, if_false, wp_pure]
      exact ⟨_, hnote, hstep⟩
    · rw [if_neg hc] at hstep
      simp only [Bool.eq_false_iff.2 hc, Bool.not_false, if_true, wp_bind, wp_tell, wp_update, wp_pure]
      exact ⟨_, hnote, hstep⟩
  · rename_i hsub
    have plain : r.session.host.hasSubstitute e.pointee = false := Bool.eq_false_iff.2 hsub
    refine wp_told_if fun r' hs => ?_
    rw [← hs] at hnote plain ⊢
    cases hget : r'.session.catalog.get? e.pointee with
    | some entry =>
      have hadd : r'.session.catalog.add (r'.session.foundEntry e) = (r'.session.catalog, false) :=
        add_known hget
      unfold foundEntry at hadd
      simp only [hadd, wp_bind, wp_update, hget, Option.getD_some, Bool.false_and, Bool.false_eq_true,
        if_false]
      split
      · rename_i hregion
        exact Or.inr ⟨hnote, entry, hget, hregion, rfl⟩
      · rename_i hregion
        exact ⟨_, hnote, .known plain hget (not_ne_iff.1 hregion)⟩
    | none =>
      have hadd : r'.session.catalog.add (r'.session.foundEntry e) =
          (r'.session.catalog.put (r'.session.foundEntry e), true) := add_new hget
      have hfound : (r'.session.catalog.put (r'.session.foundEntry e)).get? e.pointee =
          some (r'.session.foundEntry e) := by
        rw [Catalog.get?_put]
        exact if_pos rfl
      unfold foundEntry at hadd hfound
      simp only [hadd, wp_bind, wp_update, hfound, Option.getD_some, Bool.true_and]
      have hregion : (SourceEntry.found e.pointee (r'.session.classify e) e.kind e.size
          e.readOnly).readOnly = e.readOnly := rfl
      rw [if_neg (not_ne_iff.2 hregion)]
      split
      · rename_i hcopied
        have hfate : r'.session.classify e = .copy := by
          simpa [SourceEntry.isCopied, SourceEntry.found, foundEntry] using hcopied
        rw [wp_bind, wp_acceptEntry]
        exact ⟨_, hnote, .accepted plain hget hfate⟩
      · rename_i hcopied
        refine ⟨_, hnote, .left plain hget fun hfate => hcopied ?_⟩
        simpa [SourceEntry.isCopied, SourceEntry.found, foundEntry] using hfate

/-- What marking `field` changes: bit `bits.start + offset / wordBytes` of the list, and the flag of
    `e`. -/
theorem markField_eq_ok {l l' : CopyList} {e e' : SourceEntry} {field : Word}
    (h : l.markField e field = .ok (l', e')) :
    ∃ bits offset, e.bits? = some bits ∧ CopyList.fieldOffset? e field = some offset ∧
      bits.start + offset / wordBytes < l.ledger.len ∧
      l' = { l with ledger := l.ledger.insert (bits.start + offset / wordBytes) } ∧
      e' = { e with hasPointers := true } := by
  unfold CopyList.markField at h
  split at h
  · rename_i bits offset hbits hoffset
    unfold Ledger.set? at h
    by_cases hlt : bits.start + offset / wordBytes < l.ledger.len
    · rw [if_pos hlt] at h
      cases h
      exact ⟨bits, offset, hbits, hoffset, hlt, rfl, rfl⟩
    · rw [if_neg hlt] at h
      cases h
  · cases h

theorem sources_books (s : Session) (kind : RegionKind) :
    s.books.sources kind = (s.copyList kind).sources.toList := by
  unfold Books.sources
  rw [books_list]

/-- Noting a field keeps the books in agreement. -/
theorem NoteStep.kept {s s' : Session} {e : Edge} (h : NoteStep s e s') (hkept : s.books.Kept) :
    s'.books.Kept := by
  cases h with
  | ignored => exact hkept
  | @marked place entry entry' l _ found copied mark =>
    obtain ⟨bits, offset, -, -, -, rfl, rfl⟩ := markField_eq_ok mark
    have hsource : entry.source = place.enclosing := hkept.keyed _ _ found
    refine hkept.revise { entry with hasPointers := true } (e := entry)
      (by rw [← hsource] at found; exact found) ?_ ?_ rfl rfl rfl fun _ => copied
    · intro kind
      rw [sources_books, sources_books, revised_copyList]
      split
      · rename_i hk; rw [← hk]
      · rfl
    · intro w
      rw [books_catalog, revised_catalog, Catalog.get?_put]
      rfl

theorem sources_accept (l : CopyList) (e : SourceEntry) :
    (l.accept e).sources.toList = l.sources.toList ++ [e.source] := by simp [CopyList.accept]

/-- Entering a target keeps the books in agreement. -/
theorem EnterStep.kept {s s' : Session} {e : Edge} {v : Visit} (h : EnterStep s e v s')
    (hkept : s.books.Kept) : s'.books.Kept := by
  cases h with
  | replaced =>
    unfold withReplaced
    split
    · exact hkept
    · exact ⟨hkept.keyed, hkept.nodup, hkept.listed, hkept.enlisted, hkept.copied⟩
  | known => exact hkept
  | left _ new fate =>
    refine hkept.enter (e := s.foundEntry e) new (fun _ => rfl) (fun w => ?_) (fun hc => ?_) nofun
    · exact Catalog.get?_put ..
    · exact absurd (by simpa [SourceEntry.isCopied, foundEntry, SourceEntry.found] using hc) fate
  | accepted _ new fate =>
    have hcopied : (s.foundEntry e).isCopied = true := by
      simpa [SourceEntry.isCopied, foundEntry, SourceEntry.found] using fate
    have hnew : s.catalog.get? (s.foundEntry e).source = none := new
    have halias : (s.foundEntry e).isAlias = false := rfl
    generalize s.foundEntry e = x at hcopied hnew halias
    refine hkept.enlist (e := (s.copyList (.ofReadOnly x.readOnly)).listed x) hnew (fun kind => ?_)
      (fun w => enlisted_get? ..) hcopied halias
    rw [sources_books, sources_books, enlisted_copyList]
    change _ = _ ++ if RegionKind.ofReadOnly x.readOnly = kind then [x.source] else []
    split
    · exact sources_accept ..
    · rw [List.append_nil]

/-- Noting a field changes the books of `s` alone. -/
theorem NoteStep.frame {s s' : Session} {e : Edge} (h : NoteStep s e s') :
    s' = s.withBooks s'.books := by
  cases h with
  | ignored => rfl
  | marked => exact revised_frame ..

/-- Entering a target changes the books of `s` alone. -/
theorem EnterStep.frame {s s' : Session} {e : Edge} {v : Visit} (h : EnterStep s e v s') :
    s' = s.withBooks s'.books := by
  cases h with
  | replaced =>
    unfold withReplaced
    split <;> rfl
  | known => rfl
  | left => rfl
  | accepted =>
    have hrevised := fun kind l x => revised_frame (s.withEntry (s.foundEntry e)) kind l x
    exact hrevised ..

/-- Noting a field does not replace an object. -/
theorem NoteStep.replaced {s s' : Session} {e : Edge} (h : NoteStep s e s') :
    s'.replaced = s.replaced := by
  cases h with
  | ignored => rfl
  | marked => exact revised_replaced ..

/-- Only `e.pointee` is found to be replaced. -/
theorem EnterStep.replaced_subset {s s' : Session} {e : Edge} {v : Visit} (h : EnterStep s e v s')
    {w : Word} (hw : w ∈ s'.replaced) : w ∈ s.replaced ∨ w = e.pointee := by
  cases h with
  | replaced =>
    unfold withReplaced at hw
    split at hw
    · exact Or.inl hw
    · exact Array.mem_push.1 hw
  | known => exact Or.inl hw
  | left => exact Or.inl hw
  | accepted =>
    unfold enlisted Session.accepted at hw
    rw [revised_replaced] at hw
    exact Or.inl hw

/-- Noting a field changes nothing of an entry `x` but its flag. -/
theorem NoteStep.get? {s s' : Session} {e : Edge} (h : NoteStep s e s') (hkept : s.books.Kept)
    (w : Word) : s'.catalog.get? w = s.catalog.get? w ∨
      ∃ x, s.catalog.get? w = some x ∧ s'.catalog.get? w = some { x with hasPointers := true } := by
  cases h with
  | ignored => exact Or.inl rfl
  | @marked place entry entry' l _ found _ mark =>
    obtain ⟨_, _, -, -, -, -, rfl⟩ := markField_eq_ok mark
    have hsource : entry.source = place.enclosing := hkept.keyed _ _ found
    rw [revised_catalog, Catalog.get?_put]
    by_cases hw : entry.source = w
    · right
      rw [if_pos hw]
      exact ⟨entry, by rw [← hw, hsource]; exact found, rfl⟩
    · rw [if_neg hw]
      exact Or.inl rfl

/-- An entry `x` after a field was noted is an entry `y` from before, but for its flag. -/
theorem NoteStep.entry {s s' : Session} {e : Edge} (h : NoteStep s e s') (hkept : s.books.Kept) {w : Word}
    {x : SourceEntry} (hx : s'.catalog.get? w = some x) :
    ∃ y flag, s.catalog.get? w = some y ∧ x = { y with hasPointers := flag } := by
  rcases h.get? hkept w with hsame | ⟨y, hy, hnew⟩
  · exact ⟨x, _, hsame ▸ hx, rfl⟩
  · exact ⟨y, true, hy, Option.some_inj.1 (hx.symm.trans hnew)⟩

/-- Entering a target adds the entry of `e.pointee`, or none. -/
theorem EnterStep.get? {s s' : Session} {e : Edge} {v : Visit} (h : EnterStep s e v s') (w : Word) :
    s'.catalog.get? w = s.catalog.get? w ∨ w = e.pointee ∧ s.catalog.get? w = none ∧
      ∃ bits?, s'.catalog.get? w = some { s.foundEntry e with bits? := bits? } := by
  cases h with
  | replaced =>
    unfold withReplaced
    split <;> exact Or.inl rfl
  | known => exact Or.inl rfl
  | left _ new =>
    rw [withEntry_catalog, Catalog.get?_put]
    by_cases hw : (s.foundEntry e).source = w
    · rw [if_pos hw]
      exact Or.inr ⟨hw.symm, hw ▸ new, none, rfl⟩
    · rw [if_neg hw]
      exact Or.inl rfl
  | accepted _ new =>
    rw [enlisted_get?]
    by_cases hw : (s.foundEntry e).source = w
    · rw [if_pos hw]
      exact Or.inr ⟨hw.symm, hw ▸ new, _, rfl⟩
    · rw [if_neg hw]
      exact Or.inl rfl

/-- An entry `x` after a target was entered was there before, or is that of `e.pointee`. -/
theorem EnterStep.entry {s s' : Session} {e : Edge} {v : Visit} (h : EnterStep s e v s') {w : Word}
    {x : SourceEntry} (hx : s'.catalog.get? w = some x) :
    s.catalog.get? w = some x ∨ w = e.pointee ∧ ∃ bits?, x = { s.foundEntry e with bits? := bits? } := by
  rcases h.get? w with hsame | ⟨hw, -, bits?, hnew⟩
  · exact .inl (hsame ▸ hx)
  · exact .inr ⟨hw, bits?, Option.some_inj.1 (hx.symm.trans hnew)⟩

/-- What is not looked into is not copied, unless it was known to `s`. -/
theorem EnterStep.skip {s s' : Session} {e : Edge} (h : EnterStep s e .skip s') {w : Word}
    {x : SourceEntry} (hx : s'.catalog.get? w = some x) (hcopied : x.isCopied = true) :
    s.catalog.get? w = some x := by
  cases h with
  | replaced => rwa [withReplaced_catalog] at hx
  | known => exact hx
  | left _ _ fate =>
    rw [withEntry_catalog, Catalog.get?_put] at hx
    split at hx
    · cases hx
      exact absurd (by simpa [SourceEntry.isCopied, foundEntry, SourceEntry.found] using hcopied) fate
    · exact hx

/-- What is looked into is new to `s`, and has an entry in `s'`. -/
theorem EnterStep.recurse {s s' : Session} {e : Edge} (h : EnterStep s e .recurse s') :
    s.catalog.get? e.pointee = none ∧ (s'.catalog.get? e.pointee).isSome = true := by
  cases h with
  | accepted _ new =>
    refine ⟨new, ?_⟩
    rw [enlisted_get?]
    exact (if_pos (rfl : (s.foundEntry e).source = e.pointee)) ▸ rfl

/-- What the search for first roots may change from `s` to `s'`. -/
def SeedChange (s s' : Session) : Prop :=
  ∃ descriptors strings estimate,
    s' = { s with typeDescriptors := descriptors, internedStrings := strings, estimate := estimate }

/-- What a survey of `roots` that succeeds leaves in `s'`: the first roots are what it found, in
    some order, and no less is estimated than it counted. -/
def Surveyed (roots : List Word) (s s' : Session) : Prop :=
  SeedChange s s' ∧ ∃ v, s.survey roots = (.ok (), v) ∧ s'.internedStrings.Perm v.strings.toList ∧
    s'.typeDescriptors.Perm v.descriptors.toList ∧ s'.estimate.Covers v.estimate.objectBytes

theorem perm_sortedByName (s : Session) (xs : List Word) : (s.sortedByName xs).Perm xs := by
  have hsort := (perm_sortBy (fun a b : String × Word => !decide (b.1 < a.1))
    (xs.map fun d => (s.host.typeName d, d))).map (·.2)
  unfold sortedByName
  refine hsort.trans ?_
  rw [List.map_map]
  exact List.Perm.of_eq (List.map_id _)

theorem triple_gatherSeeds (s : Session) (roots : List Word) :
    Triple (· = s) (gatherSeeds roots) (fun _ => Surveyed roots s) (fun _ => SeedChange s) := by
  rintro r rfl
  unfold gatherSeeds
  simp only [wp_bind, wp_tell, wp_session, wp_update, wp_ofFailure]
  rcases hv : r.session.survey roots with ⟨f | ⟨⟩, v⟩
  · exact ⟨_, _, _, rfl⟩
  · cases r.session.isIncremental with
    | true =>
      simp only [Bool.not_true, Bool.false_eq_true, if_false, wp_bind, wp_tell, wp_session, wp_update]
      split
      · exact ⟨_, _, _, rfl⟩
      · exact ⟨⟨_, _, _, rfl⟩, v, hv, perm_sortBy .., perm_sortedByName .., .refl _⟩
    | false =>
      simp only [Bool.not_false, if_true, wp_bind, wp_tell, wp_session, wp_update]
      split
      · exact ⟨_, _, _, rfl⟩
      · exact ⟨⟨_, _, _, rfl⟩, v, hv, perm_sortBy .., perm_sortedByName ..,
        ((SizeEstimate.Covers.refl _).addBytes _).mono (Nat.le_add_right ..)⟩

/-- Gathering is a search for first roots and then a loop of visits from what it found, which take
    `P` of the roots that are left from one to the next. -/
theorem triple_gather_visits {s : Session} {P : List Word → Session → Prop} {E : Failure → Session → Prop}
    (roots : List Word) (horder : s.stage ≠ .new → E (Violation.outOfOrder "gather_source_objs") s)
    (hfound : s.stage = .new → Triple (· = s) (gatherSeeds roots) (fun _ => Surveyed roots s) E)
    (hseeds : s.stage = .new → ∀ s', Surveyed roots s s' →
      P (s'.internedStrings ++ s'.typeDescriptors ++ roots) s')
    (hvisit : s.stage = .new → ∀ s₁, Surveyed roots s s₁ → ∀ root rest,
      root ∈ s₁.internedStrings ++ s₁.typeDescriptors ++ roots →
        Triple (P (root :: rest)) (s₁.host.visit root registerEdge) (fun _ => P rest) E) :
    Triple (· = s) (gather roots) (fun _ s' => s.stage = .new ∧ ∃ s₁, P [] s₁ ∧
      s' = { s₁ with stage := .gathered }) E := by
  rintro r rfl
  unfold gather
  rw [wp_bind, wp_requireStage]
  split
  · rename_i hnew
    rw [wp_bind]
    refine (hfound hnew).use rfl (fun _ r₁ h₁ => ?_) fun _ _ h => h
    simp only [wp_bind, wp_tell, wp_session]
    refine (Triple.forM (I := fun rest s => P rest s ∧
      ∀ root ∈ rest, root ∈ r₁.session.internedStrings ++ r₁.session.typeDescriptors ++ roots)
      (fun root rest r₂ h₂ => ?_) _).use ⟨hseeds hnew _ h₁, fun _ => id⟩
      (fun _ r₂ h₂ => ⟨hnew, _, h₂.1, rfl⟩) (fun _ _ h => h)
    obtain ⟨hroot, hrest⟩ := List.forall_mem_cons.1 h₂.2
    exact (hvisit hnew _ h₁ root rest hroot).use h₂.1 (fun _ _ h => ⟨h, hrest⟩) fun _ _ h => h
  · rename_i hnew
    exact horder hnew

/-- Gathering keeps a property `P` that each of its visits keeps. -/
theorem triple_gather_surveyed {s : Session} {P : Session → Prop} {E : Failure → Session → Prop}
    (roots : List Word) (horder : s.stage ≠ .new → E (Violation.outOfOrder "gather_source_objs") s)
    (hfail : s.stage = .new → ∀ f s', SeedChange s s' → E f s')
    (hseeds : s.stage = .new → ∀ s', Surveyed roots s s' → P s')
    (hvisit : s.stage = .new → ∀ s₁, Surveyed roots s s₁ →
      ∀ root ∈ s₁.internedStrings ++ s₁.typeDescriptors ++ roots,
        Triple P (s₁.host.visit root registerEdge) (fun _ => P) E) :
    Triple (· = s) (gather roots) (fun _ s' => s.stage = .new ∧ ∃ s₁, P s₁ ∧
      s' = { s₁ with stage := .gathered }) E :=
  triple_gather_visits (P := fun _ => P) roots horder
    (fun hnew => (triple_gatherSeeds s roots).conseq (fun _ h => h) (fun _ _ h => h) (hfail hnew)) hseeds
    fun hnew s₁ h root _ hroot => hvisit hnew s₁ h root hroot

@[inherit_doc triple_gather_surveyed]
theorem triple_gather {s : Session} {P : Session → Prop} {E : Failure → Session → Prop}
    (roots : List Word) (horder : s.stage ≠ .new → E (Violation.outOfOrder "gather_source_objs") s)
    (hseeds : s.stage = .new → ∀ s', SeedChange s s' → P s' ∧ ∀ f, E f s')
    (hvisit : s.stage = .new → ∀ s₁ root, SeedChange s s₁ →
      Triple P (s₁.host.visit root registerEdge) (fun _ => P) E) :
    Triple (· = s) (gather roots) (fun _ s' => s.stage = .new ∧ ∃ s₁, P s₁ ∧
      s' = { s₁ with stage := .gathered }) E :=
  triple_gather_surveyed roots horder (fun hnew f s' h => (hseeds hnew s' h).2 f)
    (fun hnew s' h => (hseeds hnew s' h.1).1) fun hnew s₁ h root _ => hvisit hnew s₁ root h.1

end SessionM

end SnapshotArchive
