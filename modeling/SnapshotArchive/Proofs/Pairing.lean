import Mathlib.Data.List.Forall2
import SnapshotArchive.Proofs.Allocation
import SnapshotArchive.Proofs.Books
import SnapshotArchive.Proofs.Correspondence

/-!
Sessions over heaps that correspond. Two such sessions have the same books, but for the addresses in them:
where one has an object, the other has the object that corresponds to it, and where one has an address of
its buffer, the other has the address at the same distance from the bottom of its own buffer.
-/

namespace SnapshotArchive

/-- Two builds that are compared: their heaps and how the objects of these correspond, where their buffers
    are reserved, and the base addresses they are made for. -/
structure Pairing where
  heap : Heap
  heap' : Heap
  Mate : Word → Word → Prop
  reservations : Reservations
  reservations' : Reservations
  base : Word
  base' : Word

namespace Pairing

variable (p : Pairing)

/-- The bottom of the buffer of `p`. -/
def bottom : Addr .buffer := p.reservations.bottom

@[inherit_doc bottom]
def bottom' : Addr .buffer := p.reservations'.bottom

/-- The objects of the two heaps of `p` correspond. -/
structure Fair : Prop where
  sound : p.heap.Sound
  sound' : p.heap'.Sound
  corresponds : p.heap.Corresponds p.heap' p.Mate

/-- Two places `a` and `b` at the same distance from the bottoms of the buffers. -/
def Level (a b : Addr .buffer) : Prop := b.word - p.bottom'.word = a.word - p.bottom.word

/-- Interned strings `a` and `a'` that correspond. -/
def StringMate (a a' : Word) : Prop :=
  p.Mate a a' ∧ ∃ o, p.heap.object? a = some o ∧ o.kind = .internedString

/-- Corresponding roots `a` and `a'`, of which neither may be an object. -/
def RootMate (a a' : Word) : Prop :=
  p.Mate a a' ∨ p.heap.object? a = none ∧ p.heap'.object? a' = none

end Pairing

variable {p : Pairing}

/-- The same account `e` and `e'` of corresponding objects. -/
structure SourceEntry.Mates (p : Pairing) (a a' : Word) (e e' : SourceEntry) : Prop where
  source : e.source = a
  same : e' = { e with source := a', output? := e'.output? }
  output : Option.Rel p.Level e.output? e'.output?

/-- The same accounts in `c` and `c'` of corresponding objects, and of no others. -/
structure Catalog.Mates (p : Pairing) (c c' : Catalog) : Prop where
  entries : ∀ a a', p.Mate a a' → Option.Rel (SourceEntry.Mates p a a') (c.get? a) (c'.get? a')
  mate : ∀ a e, c.get? a = some e → ∃ a', p.Mate a a'
  mate' : ∀ a' e, c'.get? a' = some e → ∃ a, p.Mate a a'
  sources : ∀ a b, p.Level a b → (c'.sourceOf? b).isSome = (c.sourceOf? a).isSome

/-- The same list `l` and `l'` of corresponding objects. -/
structure CopyList.Mates (p : Pairing) (l l' : CopyList) : Prop where
  sources : List.Forall₂ p.Mate l.sources.toList l'.sources.toList
  ledger : l'.ledger = l.ledger
  totalBytes : l'.totalBytes = l.totalBytes

/-- Ranges `r` and `r'` in which corresponding objects lie at the same places. -/
structure AddrRange.Mates (p : Pairing) (r r' : AddrRange .mapped) : Prop where
  length : r'.length = r.length
  contains : ∀ a a', p.Mate a a' → r'.contains a' = r.contains a
  offset : ∀ a a', p.Mate a a' → r.contains a = true →
    a'.toNat - r'.bottom.toNat = a.toNat - r.bottom.toNat

/-- Corresponding dependencies `d` and `d'`, each requested at its base address. -/
structure Dependency.Mates (p : Pairing) (d d' : Dependency) : Prop extends
    AddrRange.Mates p d.mapped d'.mapped where
  requested : d.requested.bottom.word = p.base ∧ d.requested.length = d.mapped.length
  requested' : d'.requested.bottom.word = p.base' ∧ d'.requested.length = d'.mapped.length

/-- The same output, but for the words `hot` and for what is marked. -/
structure Output.Mates (p : Pairing) (hot : Nat → Prop) (o o' : Output) : Prop where
  bottom : o.buffer.bottom = p.bottom
  bottom' : o'.buffer.bottom = p.bottom'
  length : o'.buffer.length = o.buffer.length
  arena : o'.arena = o.arena
  sound : o.arena.Sound ∧ o.arena.length < addressLimit
  words : ∀ i, ¬hot i → o'.buffer.words.read i = o.buffer.words.read i
  meter : o'.meter = o.meter
  advisories : o'.advisories = o.advisories
  requested : o'.requestedBottom.toNat + p.base.toNat = o.requestedBottom.toNat + p.base'.toNat

/-- The same session `s` and `s'`, but for the addresses in it and the words `hot`. -/
structure Session.Mates (p : Pairing) (hot : Nat → Prop) (s s' : Session) : Prop where
  host : s.host = p.heap.toHost
  host' : s'.host = p.heap'.toHost
  reservations : s.reservations = p.reservations
  reservations' : s'.reservations = p.reservations'
  base : s.settings.requestedBase = p.base
  base' : s'.settings.requestedBase = p.base'
  valid : s.settings.validate = .ok ()
  valid' : s'.settings.validate = .ok ()
  alignment : s'.settings.regionAlignment = s.settings.regionAlignment
  placeholder : s'.settings.placeholderBytes = s.settings.placeholderBytes
  dependency : Option.Rel (Dependency.Mates p) s.dependency? s'.dependency?
  stage : s'.stage = s.stage
  catalog : s.catalog.Mates p s'.catalog
  mutable : s.mutableList.Mates p s'.mutableList
  readOnly : s.readOnlyList.Mates p s'.readOnlyList
  descriptors : List.Forall₂ p.Mate s.typeDescriptors s'.typeDescriptors
  strings : List.Forall₂ p.StringMate s.internedStrings s'.internedStrings
  replaced : List.Forall₂ p.Mate s.replaced.toList s'.replaced.toList
  estimate : s'.estimate = s.estimate
  output : Option.Rel (Output.Mates p hot) s.output? s'.output?

theorem Session.Mates.bottom {hot : Nat → Prop} {s s' : Session} (h : s.Mates p hot s') :
    s.reservations.bottom = p.bottom := by
  rw [h.reservations]
  rfl

namespace SourceEntry.Mates

variable {a a' : Word} {e e' : SourceEntry}

theorem source' (h : e.Mates p a a' e') : e'.source = a' := by rw [h.same]

theorem disposition (h : e.Mates p a a' e') : e'.disposition = e.disposition := by rw [h.same]

theorem isCopied (h : e.Mates p a a' e') : e'.isCopied = e.isCopied := by
  simp only [SourceEntry.isCopied, h.disposition]

theorem kind (h : e.Mates p a a' e') : e'.kind = e.kind := by rw [h.same]

theorem size (h : e.Mates p a a' e') : e'.size = e.size := by rw [h.same]

theorem readOnly (h : e.Mates p a a' e') : e'.readOnly = e.readOnly := by rw [h.same]

theorem bits (h : e.Mates p a a' e') : e'.bits? = e.bits? := by rw [h.same]

/-- Both are settled or neither is. -/
theorem resolution_isSome (h : e.Mates p a a' e') :
    e'.resolution?.isSome = e.resolution?.isSome := by
  have hout := h.output
  simp only [resolution?, h.disposition]
  rcases e.disposition
  · generalize e.output? = o? at hout ⊢
    generalize e'.output? = o?' at hout ⊢
    rcases hout with - | - <;> rfl
  · rfl
  · rfl

theorem found (a a' : Word) (fate : Disposition) (kind : ObjectKind) (size : Nat) (readOnly : Bool) :
    (SourceEntry.found a fate kind size readOnly).Mates p a a'
      (SourceEntry.found a' fate kind size readOnly) := ⟨rfl, rfl, .none⟩

theorem standIn (h : e.Mates p a a' e') (b b' : Word) : (e.standIn b).Mates p b b' (e'.standIn b') :=
  ⟨rfl, by rw [h.same]; rfl, h.output⟩

theorem placed (h : e.Mates p a a' e') {target target' : Addr .buffer} (hl : p.Level target target') :
    SourceEntry.Mates p a a' { e with output? := some target } { e' with output? := some target' } :=
  ⟨h.source, by rw [h.same], .some hl⟩

end SourceEntry.Mates

namespace Catalog.Mates

variable {c c' : Catalog} {a a' : Word}

theorem empty : Catalog.empty.Mates p .empty where
  entries a a' _ := by
    rw [get?_empty, get?_empty]
    exact .none
  mate a e he := by
    rw [get?_empty] at he
    cases he
  mate' a e he := by
    rw [get?_empty] at he
    cases he
  sources a b _ := by simp [Catalog.empty, sourceOf?]

theorem isSome (h : c.Mates p c') (hmate : p.Mate a a') :
    (c'.get? a').isSome = (c.get? a).isSome := by
  have hrel := h.entries a a' hmate
  generalize c.get? a = e? at hrel ⊢
  generalize c'.get? a' = e?' at hrel ⊢
  rcases hrel with - | - <;> rfl

theorem put (h : c.Mates p c') (hpaired : p.Fair) (hmate : p.Mate a a') {e e' : SourceEntry}
    (he : e.Mates p a a' e') : (c.put e).Mates p (c'.put e') where
  entries b b' hb := by
    rw [get?_put, get?_put, he.source, he.source']
    have hsame := hpaired.corresponds.paired a a' b b' hmate hb
    by_cases hab : a = b
    · obtain rfl := hab
      obtain rfl := hsame.1 rfl
      rw [if_pos rfl, if_pos rfl]
      exact .some he
    · rw [if_neg hab, if_neg (mt hsame.2 hab)]
      exact h.entries b b' hb
  mate b x hx := by
    rw [get?_put, he.source] at hx
    by_cases hab : a = b
    · exact ⟨a', hab ▸ hmate⟩
    · rw [if_neg hab] at hx
      exact h.mate b x hx
  mate' b x hx := by
    rw [get?_put, he.source'] at hx
    by_cases hab : a' = b
    · exact ⟨a, hab ▸ hmate⟩
    · rw [if_neg hab] at hx
      exact h.mate' b x hx
  sources := h.sources

end Catalog.Mates

end SnapshotArchive
