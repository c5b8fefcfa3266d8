import Mathlib.Data.List.Forall2
import SnapshotArchive.Proofs.HeapShape
import SnapshotArchive.Proofs.Lockstep

/-!
Heaps whose objects correspond. Corresponding objects differ in where they lie and in nothing else: their
pointer fields hold the addresses of corresponding objects, and all other words are the same. What a host
reports of corresponding objects corresponds, reference by reference.
-/

namespace SnapshotArchive

/-- The same object, as `o` and as `o'` at another place. -/
structure HeapObject.Alike (o o' : HeapObject) : Prop where
  length : o'.length = o.length
  kind : o'.kind = o.kind
  name : o'.name? = o.name?
  readOnly : o'.readOnly = o.readOnly
  fields : o'.fields.toList = o.fields.toList

namespace Heap

/-- The bytes of the dependency segment of `h`. -/
def segmentBytes (h : Heap) : Nat := h.segment * wordBytes

/-- The relation `Mate` takes objects of one heap to those objects of the other that correspond to
    them. -/
structure Corresponds (h h' : Heap) (Mate : Word → Word → Prop) : Prop where
  paired : ∀ a a' b b', Mate a a' → Mate b b' → (a = b ↔ a' = b')
  object : ∀ a a', Mate a a' →
    ∃ o o', h.object? a = some o ∧ h'.object? a' = some o' ∧ o.Alike o'
  /-- A pointer field holds the address of an object on both sides, or the same word, which is none. -/
  pointers : ∀ a a' o i, Mate a a' → h.object? a = some o → i ∈ o.fields → i < o.length →
    Mate (h.wordAt a i) (h'.wordAt a' i) ∨
      h'.wordAt a' i = h.wordAt a i ∧ h.object? (h.wordAt a i) = none ∧ h'.object? (h'.wordAt a' i) = none
  others : ∀ a a' o i, Mate a a' → h.object? a = some o → i ∉ o.fields → i < o.length →
    h'.wordAt a' i = h.wordAt a i
  excluded : ∀ a a', Mate a a' → h'.excluded.contains a' = h.excluded.contains a
  /-- Substitutes correspond if they have mates at all. -/
  substitutes : ∀ a a', Mate a a' → Option.Rel
    (fun u u' => Mate u u' ∨ (∀ v, ¬Mate u v) ∧ ∀ v, ¬Mate v u') h.substitutes[a]? h'.substitutes[a']?
  /-- The dependency is moved as a whole. -/
  segment : h'.segment = h.segment
  inSegment : ∀ a a', Mate a a' →
    (a'.toNat < h'.base.toNat + h'.segmentBytes ↔ a.toNat < h.base.toNat + h.segmentBytes) ∧
      (a.toNat < h.base.toNat + h.segmentBytes → a'.toNat - h'.base.toNat = a.toNat - h.base.toNat)
  /-- Interned strings lie in the same order. -/
  strings : ∀ a a' b b' o u, Mate a a' → Mate b b' → h.object? a = some o → h.object? b = some u →
    o.kind = .internedString → u.kind = .internedString → (a' ≤ b' ↔ a ≤ b)

end Heap

/-- Fields `f` and `f'` are at the same distance from the start of corresponding objects. -/
def FieldRef.Mates (Mate : Word → Word → Prop) (f f' : FieldRef) : Prop :=
  Mate f.enclosing f'.enclosing ∧
    ∃ n, f.field.toNat = f.enclosing.toNat + n ∧ f'.field.toNat = f'.enclosing.toNat + n

/-- References `e` and `e'` lead from corresponding places to corresponding objects. -/
structure Edge.Mates (h : Heap) (Mate : Word → Word → Prop) (e e' : Edge) : Prop where
  target : h.Targets e
  origin : Option.Rel (FieldRef.Mates Mate) e.origin? e'.origin?
  pointee : Mate e.pointee e'.pointee
  kind : e'.kind = e.kind
  size : e'.size = e.size
  readOnly : e'.readOnly = e.readOnly

theorem forall₂_filterMap {α β γ : Type} {A : β → γ → Prop} {f : α → Option β} {g : α → Option γ}
    {xs : List α} (h : ∀ x ∈ xs, Option.Rel A (f x) (g x)) :
    List.Forall₂ A (xs.filterMap f) (xs.filterMap g) := by
  induction xs with
  | nil => exact .nil
  | cons x rest ih =>
    have hrest := ih fun y hy => h y (List.mem_cons_of_mem _ hy)
    have hx := h x (List.mem_cons_self ..)
    rw [List.filterMap_cons, List.filterMap_cons]
    generalize f x = b? at hx ⊢
    generalize g x = c? at hx ⊢
    rcases hx with hbc | -
    · exact .cons hbc hrest
    · exact hrest

namespace Heap.Corresponds

variable {h h' : Heap} {Mate : Word → Word → Prop} {a a' : Word} {o o' : HeapObject}

/-- Corresponding objects at `a` and `a'` are of the same kind and size. -/
theorem alike (hc : h.Corresponds h' Mate) (hmate : Mate a a') (ho : h.object? a = some o) :
    ∃ o', h'.object? a' = some o' ∧ o.Alike o' := by
  obtain ⟨o₁, o', ho₁, ho', halike⟩ := hc.object a a' hmate
  obtain rfl := Option.some_inj.1 (ho.symm.trans ho₁)
  exact ⟨o', ho', halike⟩

theorem rootEdge (hc : h.Corresponds h' Mate) (hmate : Mate a a') :
    Option.Rel (Edge.Mates h Mate) (h.toHost.rootEdge? a) (h'.toHost.rootEdge? a') := by
  obtain ⟨o, o', ho, ho', halike⟩ := hc.object a a' hmate
  simp only [toHost, ho, ho', Option.map_some]
  exact .some ⟨⟨o, ho, rfl, rfl⟩, .none, hmate, halike.kind, by simp only [Heap.rootEdge, HeapObject.size, halike.length],
    halike.readOnly⟩

/-- Field `i` of corresponding objects holds corresponding references, or none in either. -/
theorem fieldEdge (hc : h.Corresponds h' Mate) (hs : h.Sound) (hs' : h'.Sound) (hmate : Mate a a')
    (ho : h.object? a = some o) (ho' : h'.object? a' = some o') (halike : o.Alike o') {i : Nat}
    {readOnly? : Option Bool} (hfield : i ∈ o.fields) (hi : i < o.length) :
    Option.Rel (Edge.Mates h Mate) (h.fieldEdge? a o i readOnly?) (h'.fieldEdge? a' o' i readOnly?) := by
  simp only [fieldEdge?, ← hs.wordAt_eq ho, ← hs'.wordAt_eq ho']
  rcases hc.pointers a a' o i hmate ho hfield hi with ht | ⟨-, hnone, hnone'⟩
  · obtain ⟨t, t', hot, hot', hsame⟩ := hc.object _ _ ht
    simp only [hot, hot', Option.map_some]
    refine .some ⟨⟨t, hot, rfl, rfl⟩, .some ⟨hmate, wordBytes * i, hs.toNat_field ho hi, ?_⟩, ht, hsame.kind, ?_, ?_⟩
    · exact hs'.toNat_field ho' (by rw [halike.length]; exact hi)
    · simp only [HeapObject.size, hsame.length]
    · simp only [hsame.readOnly]
  · simp only [hnone, hnone', Option.map_none]
    exact .none

theorem fieldsInside (halike : o.Alike o') : o'.fieldsInside = o.fieldsInside := by
  simp only [HeapObject.fieldsInside, ← Std.TreeMap.map_fst_toList_eq_keys, halike.fields, halike.length]

/-- What the objects at `a` and `a'` hold corresponds. -/
theorem edges (hc : h.Corresponds h' Mate) (hs : h.Sound) (hs' : h'.Sound) (hmate : Mate a a')
    (sure : Prop) :
    Agree sure (List.Forall₂ (Edge.Mates h Mate)) (h.toHost.edges a) (h'.toHost.edges a') := by
  obtain ⟨o, o', ho, ho', halike⟩ := hc.object a a' hmate
  simp only [toHost, Heap.edges, ho, ho', fieldsInside halike, halike.fields]
  by_cases hinside : o.fieldsInside = true
  · rw [if_pos hinside, if_pos hinside]
    refine forall₂_filterMap fun x hx => ?_
    have hfield : x.1 ∈ o.fields := by
      rw [← Std.TreeMap.mem_keys, ← Std.TreeMap.map_fst_toList_eq_keys]
      exact List.mem_map_of_mem hx
    have hi : x.1 < o.length := by
      have hall := List.all_eq_true.1 hinside x.1 (Std.TreeMap.mem_keys.2 hfield)
      exact of_decide_eq_true hall
    exact hc.fieldEdge hs hs' hmate ho ho' halike hfield hi
  · rw [if_neg hinside, if_neg hinside]
    trivial

end Heap.Corresponds

namespace Host

variable {σ τ S T : Type} {f : σ → S} {g : τ → T} {host host' : Host} {report : Edge → ExceptT Failure (StateM σ) Visit}
  {report' : Edge → ExceptT Failure (StateM τ) Visit} {sure : Prop} {A : Edge → Edge → Prop}
  {P : S → T → Prop}

/-- What is pending after a report of `e`: no more weight than before, or the references that were
    added weigh no more than they take off. -/
def Lasts (host : Host) (weight : S → Nat) (bound : Nat) (e : Edge) (v : Visit) (s : S) : Prop :=
  match v with
  | .skip => weight s ≤ bound
  | .recurse => ∀ held, host.edges e.pointee = .ok held → held.length + weight s ≤ bound

/-- Two traversals of corresponding graphs, with fuel enough for `weight` and `weight'`. -/
theorem lockstep_walk (weight : S → Nat) (weight' : T → Nat)
    (hedges : ∀ e e', A e e' → Agree sure (List.Forall₂ A) (host.edges e.pointee) (host'.edges e'.pointee))
    (h : ∀ e e' n n', A e e' → Lockstep sure f g (fun s t => P s t ∧ weight s ≤ n ∧ weight' t ≤ n') (report e)
      (report' e') fun v v' s t => v' = v ∧ P s t ∧ host.Lasts weight n e v s ∧ host'.Lasts weight' n' e' v t)
    (fuel : Nat) : ∀ (fuel' n n' : Nat) (pending pending' : List Edge), List.Forall₂ A pending pending' →
      pending.length + n ≤ fuel → pending'.length + n' ≤ fuel' →
      Lockstep sure f g (fun s t => P s t ∧ weight s ≤ n ∧ weight' t ≤ n') (host.walk report fuel pending)
        (host'.walk report' fuel' pending') fun _ _ => P := by
  -- on the fuel of the left walk; the right one has its own, and both suffice
  induction fuel with
  | zero =>
    intro fuel' n n' pending pending' hrel hfuel _
    obtain rfl : pending = [] := List.eq_nil_of_length_eq_zero (by omega)
    cases hrel
    rcases fuel' with - | fuel' <;> simp only [walk] <;> exact Lockstep.pure fun _ _ hst => hst.1
  | succ fuel ih =>
    intro fuel' n n' pending pending' hrel hfuel hfuel'
    rcases hrel with - | @⟨e, e', rest, rest', he, hrest⟩
    · rcases fuel' with - | fuel' <;> simp only [walk] <;> exact Lockstep.pure fun _ _ hst => hst.1
    rw [List.length_cons] at hfuel hfuel'
    obtain ⟨fuel', rfl⟩ : ∃ k, fuel' = k + 1 := ⟨fuel' - 1, by omega⟩
    simp only [walk]
    refine (h e e' n n' he).bind fun v v' => Lockstep.assume ?_
    rintro rfl
    rcases v' with - | -
    · have hheld := hedges e e' he
      simp only [Lasts]
      generalize host.edges e.pointee = held? at hheld ⊢
      generalize host'.edges e'.pointee = held?' at hheld ⊢
      rcases held? with _ | held <;> rcases held?' with _ | held'
      · exact Lockstep.throw _ _
      · exact Lockstep.throw_left hheld _
      · exact Lockstep.throw_right hheld _
      · have hlength := hheld.length_eq
        rintro s t ⟨hst, hweight, hweight'⟩
        have hleft := hweight held rfl
        have hright := hweight' held' rfl
        exact ih fuel' (weight (f s)) (weight' (g t)) _ _ (List.rel_append hheld hrest)
          (by rw [List.length_append]; omega) (by rw [List.length_append]; omega) s t
          ⟨hst, Nat.le_refl _, Nat.le_refl _⟩
    · exact ih _ _ _ _ _ hrest (by omega) (by omega)

/-- Two visits from corresponding roots. -/
theorem lockstep_visit (weight : S → Nat) (weight' : T → Nat)
    (hedges : ∀ e e', A e e' → Agree sure (List.Forall₂ A) (host.edges e.pointee) (host'.edges e'.pointee))
    (h : ∀ e e' n n', A e e' → Lockstep sure f g (fun s t => P s t ∧ weight s ≤ n ∧ weight' t ≤ n') (report e)
      (report' e') fun v v' s t => v' = v ∧ P s t ∧ host.Lasts weight n e v s ∧ host'.Lasts weight' n' e' v t)
    (hweight : ∀ s, weight s ≤ host.edgeCount) (hweight' : ∀ t, weight' t ≤ host'.edgeCount)
    {root root' : Word} (hroot : Option.Rel A (host.rootEdge? root) (host'.rootEdge? root')) :
    Lockstep sure f g P (host.visit root report) (host'.visit root' report') fun _ _ => P := by
  simp only [visit]
  generalize host.rootEdge? root = e? at hroot ⊢
  generalize host'.rootEdge? root' = e?' at hroot ⊢
  rcases hroot with he | -
  · exact (lockstep_walk weight weight' hedges h _ _ host.edgeCount host'.edgeCount _ _ (.cons he .nil)
      (Nat.le_of_eq (Nat.add_comm ..))
      (Nat.le_of_eq (Nat.add_comm ..))).conseq (fun s t hst => ⟨hst, hweight s, hweight' t⟩) fun _ _ _ _ hst => hst
  · exact Lockstep.pure fun _ _ hst => hst

end Host

end SnapshotArchive
