import Mathlib.Algebra.GroupWithZero.Nat
import Mathlib.Data.List.Nodup
import Mathlib.Data.List.Perm.Subperm
import Mathlib.Tactic.Common
import SnapshotArchive.Graph.Heap

/-!
The shape of reference heaps. However a heap is built, its objects lie in its words and apart from each
other, and the heap lies in the address space above null. So the references that a traversal reports are
exactly the pointer fields that hold the address of an object.
-/

namespace SnapshotArchive

/-- What may be done to a heap. -/
inductive HeapCall where
  | alloc (kind : ObjectKind) (length : Nat) (name? : Option String)
  | allocInDependency (kind : ObjectKind) (length : Nat)
  | setWord (a : Word) (index : Nat) (w : Word)
  | setPointer (a : Word) (index : Nat) (target? : Option Word) (readOnly? : Option Bool)
  | setReadOnly (a : Word) (readOnly : Bool)
  | substitute (former replacement : Word)
  | exclude (descriptor : Word)

/-- The heap `h` after a call, whether it succeeded or failed. -/
def HeapCall.after (h : Heap) : HeapCall → Heap
  | alloc kind length name? => ((Heap.alloc kind length name?).run.run h).2
  | allocInDependency kind length => ((Heap.allocInDependency kind length).run.run h).2
  | setWord a index w => ((Heap.setWord a index w).run.run h).2
  | setPointer a index target? readOnly? => ((Heap.setPointer a index target? readOnly?).run.run h).2
  | setReadOnly a readOnly => ((Heap.setReadOnly a readOnly).run.run h).2
  | substitute former replacement => h.substitute former replacement
  | exclude descriptor => h.exclude descriptor

namespace Heap

/-- The heaps that can be built in memory above null. -/
inductive Made : Heap → Prop where
  | create {base : Word} {segment : Nat} (above : 0 < base.toNat)
      (room : base.toNat + wordBytes * segment < addressLimit) : Made (.create base segment)
  | call {h : Heap} (made : Made h) (c : HeapCall) : Made (c.after h)

/-- The heap `h` after some `calls`. -/
def afterCalls (h : Heap) (calls : List HeapCall) : Heap := calls.foldl (fun h c => c.after h) h

theorem Made.afterCalls {h : Heap} (made : h.Made) : ∀ calls : List HeapCall, (h.afterCalls calls).Made
  | [] => made
  | c :: calls => Made.afterCalls (made.call c) calls

/-- Objects lie in the words of `h` and apart from each other. -/
structure Sound (h : Heap) : Prop where
  above : 0 < h.base.toNat
  room : h.base.toNat + wordBytes * h.extent < addressLimit
  segment : h.segmentUsed ≤ h.segment ∧ h.segment ≤ h.extent
  place : ∀ a o, h.object? a = some o → a = h.addressOf o.start
  filled : ∀ a o, h.object? a = some o → 0 < o.length
  inside : ∀ a o, h.object? a = some o → o.start + o.length ≤ h.segmentUsed ∨
    h.segment ≤ o.start ∧ o.start + o.length ≤ h.extent
  apart : ∀ a o a' o', h.object? a = some o → h.object? a' = some o' → a ≠ a' →
    o.start + o.length ≤ o'.start ∨ o'.start + o'.length ≤ o.start

variable {h : Heap}

theorem object?_insert (h : Heap) (objects : Std.TreeMap Word HeapObject) (a b : Word)
    (o : HeapObject) (hobjects : h.objects = objects.insert a o) :
    h.object? b = if a = b then some o else objects[b]? := by
  unfold object?
  rw [hobjects]
  simp only [Std.TreeMap.getElem?_insert, Std.LawfulEqCmp.compare_eq_iff_eq]

theorem run_modify (h : Heap) (f : Heap → Heap) : ((modify f : HeapM Unit).run.run h).2 = f h := rfl

theorem run_get_bind {α : Type} (h : Heap) (k : Heap → HeapM α) :
    (get >>= k).run.run h = (k h).run.run h := rfl

namespace Sound

theorem toNat_addressOf (hs : h.Sound) {i : Nat} (hi : i ≤ h.extent) :
    (h.addressOf i).toNat = h.base.toNat + wordBytes * i := by
  have hroom := hs.room
  refine Word.toNat_plus ?_
  unfold addressLimit wordBytes at *
  omega

theorem end_le (hs : h.Sound) {a : Word} {o : HeapObject} (ho : h.object? a = some o) :
    o.start + o.length ≤ h.extent := by
  have := hs.inside a o ho
  have := hs.segment
  omega

theorem toNat_place (hs : h.Sound) {a : Word} {o : HeapObject} (ho : h.object? a = some o) :
    a.toNat = h.base.toNat + wordBytes * o.start := by
  have hend := hs.end_le ho
  rw [← hs.toNat_addressOf (by omega), ← hs.place a o ho]

/-- Word `i` of the object at `a` is word `o.start + i` of the heap. -/
theorem wordAt_eq (hs : h.Sound) {a : Word} {o : HeapObject} (ho : h.object? a = some o) (i : Nat) :
    h.wordAt a i = h.memory.read (o.start + i) := by
  have hplace := hs.toNat_place ho
  have hbase : h.base ≤ a := UInt64.le_iff_toNat_le.2 (by omega)
  unfold wordAt
  rw [if_pos hbase, hplace, Nat.add_sub_cancel_left, Nat.mul_div_cancel_left _ (by decide)]

/-- The place of field `i` is not around the end of the address space. -/
theorem toNat_field (hs : h.Sound) {a : Word} {o : HeapObject} (ho : h.object? a = some o) {i : Nat}
    (hi : i < o.length) : (a.plus (wordBytes * i)).toNat = a.toNat + wordBytes * i := by
  have hplace := hs.toNat_place ho
  have hend := hs.end_le ho
  have hroom := hs.room
  refine Word.toNat_plus ?_
  unfold addressLimit wordBytes at *
  omega

/-- The heap `h'` is `h` with one more object `o`. -/
theorem insert (hs : h.Sound) {h' : Heap} {o : HeapObject} (hbase : h'.base = h.base)
    (hsegment : h'.segment = h.segment)
    (hobjects : h'.objects = h.objects.insert (h.addressOf o.start) o) (hlength : 0 < o.length)
    (hnew : h.segmentUsed ≤ o.start ∧ o.start + o.length ≤ h'.segmentUsed ∧
        h'.segmentUsed ≤ h.segment ∧ h'.extent = h.extent ∨
      o.start = h.extent ∧ o.start + o.length = h'.extent ∧ h'.segmentUsed = h.segmentUsed ∧
        h.base.toNat + wordBytes * h'.extent < addressLimit) : h'.Sound := by
  have hseg := hs.segment
  have hroom := hs.room
  have hget := fun b => object?_insert h' h.objects (h.addressOf o.start) b o hobjects
  -- both the segment and the heap grow at their ends, so the new words are no object's yet
  have hold : ∀ b x, h.object? b = some x → x.start + x.length ≤ o.start ∨
      o.start + o.length ≤ x.start := by
    intro b x hx
    have := hs.inside b x hx
    omega
  refine ⟨by rw [hbase]; exact hs.above, ?_, ?_, fun b x hx => ?_, fun b x hx => ?_, fun b x hx => ?_,
    fun b x b' x' hx hx' hne => ?_⟩
  · rw [hbase]
    rcases hnew with ⟨-, -, -, he⟩ | ⟨-, -, -, he⟩
    · rw [he]; exact hroom
    · exact he
  · rw [hsegment]
    omega
  · rw [hget] at hx
    unfold addressOf
    rw [hbase]
    split at hx
    · rename_i hb
      cases hx
      exact hb.symm
    · exact hs.place b x hx
  · rw [hget] at hx
    split at hx
    · cases hx; exact hlength
    · exact hs.filled b x hx
  · rw [hget] at hx
    rw [hsegment]
    split at hx
    · cases hx; omega
    · have := hs.inside b x hx
      omega
  · rw [hget] at hx hx'
    split at hx
    · cases hx
      split at hx'
      · rename_i hb hb'
        exact absurd (hb.symm.trans hb') hne
      · exact (hold b' x' hx').symm
    · split at hx'
      · cases hx'; exact hold b x hx
      · exact hs.apart b x b' x' hx hx' hne

/-- What else is known of an object, and the contents of the heap, do not count. -/
theorem revise (hs : h.Sound) {h' : Heap} (hbase : h'.base = h.base) (hextent : h'.extent = h.extent)
    (hsegment : h'.segment = h.segment) (hused : h'.segmentUsed = h.segmentUsed)
    (hobjects : ∀ a o, h'.object? a = some o → ∃ o', h.object? a = some o' ∧ o.start = o'.start ∧
      o.length = o'.length) : h'.Sound := by
  refine ⟨by rw [hbase]; exact hs.above, by rw [hbase, hextent]; exact hs.room,
    by rw [hused, hsegment, hextent]; exact hs.segment, fun a o ho => ?_, fun a o ho => ?_,
    fun a o ho => ?_, fun a o b x ho hx hne => ?_⟩
  · obtain ⟨o', ho', hstart, -⟩ := hobjects a o ho
    unfold addressOf
    rw [hbase, hstart]
    exact hs.place a o' ho'
  · obtain ⟨o', ho', -, hlength⟩ := hobjects a o ho
    rw [hlength]
    exact hs.filled a o' ho'
  · obtain ⟨o', ho', hstart, hlength⟩ := hobjects a o ho
    rw [hstart, hlength, hused, hsegment, hextent]
    exact hs.inside a o' ho'
  · obtain ⟨o', ho', hstart, hlength⟩ := hobjects a o ho
    obtain ⟨x', hx', hstart', hlength'⟩ := hobjects b x hx
    rw [hstart, hlength, hstart', hlength']
    exact hs.apart a o' b x' ho' hx' hne

theorem create {base : Word} {segment : Nat} (above : 0 < base.toNat)
    (room : base.toNat + wordBytes * segment < addressLimit) : (Heap.create base segment).Sound := by
  have hnone : ∀ a, (Heap.create base segment).object? a = none := fun a => by
    simp [Heap.create, object?]
  refine ⟨above, room, ⟨Nat.zero_le _, Nat.le_refl _⟩, ?_, ?_, ?_, ?_⟩ <;>
    · intro a o
      intros
      simp_all

theorem updateObject (hs : h.Sound) {a : Word} {f : HeapObject → HeapObject}
    (hf : ∀ o, (f o).start = o.start ∧ (f o).length = o.length) :
    Sound ((Heap.updateObject a f).run.run h).2 := by
  rw [Heap.updateObject, run_modify]
  cases ho : h.object? a with
  | none => exact hs
  | some o =>
    refine hs.revise rfl rfl rfl rfl fun b x hx => ?_
    rw [object?_insert _ h.objects a b (f o) rfl] at hx
    split at hx
    · rename_i hb
      cases hx
      exact ⟨o, hb ▸ ho, hf o⟩
    · exact ⟨x, hx, rfl, rfl⟩

theorem setWord (hs : h.Sound) (a : Word) (index : Nat) (w : Word) :
    Sound ((Heap.setWord a index w).run.run h).2 := by
  rw [Heap.setWord, run_get_bind]
  split
  · split
    · exact hs.revise rfl rfl rfl rfl fun b x hx => ⟨x, hx, rfl, rfl⟩
    · exact hs
  · exact hs

theorem setPointer (hs : h.Sound) (a : Word) (index : Nat) (target? : Option Word)
    (readOnly? : Option Bool) : Sound ((Heap.setPointer a index target? readOnly?).run.run h).2 := by
  have hfield : Sound ((Heap.updateObject a (·.setField index readOnly?)).run.run h).2 :=
    hs.updateObject fun _ => ⟨rfl, rfl⟩
  exact hfield.setWord a index _

theorem alloc (hs : h.Sound) (kind : ObjectKind) (length : Nat) (name? : Option String) :
    Sound ((Heap.alloc kind length name?).run.run h).2 := by
  unfold Heap.alloc
  split
  · exact hs
  · rename_i hlength
    change Sound ((if addressLimit ≤ h.base.toNat + wordBytes * (h.extent + length) then
      throw .outOfBounds else do
        set { h with extent := h.extent + length }
        Heap.register h.extent length kind name? : HeapM Word).run.run h).2
    split
    · exact hs
    · rename_i hroom
      exact hs.insert (o := ⟨h.extent, length, kind, name?, readOnlyByDefault kind, ∅⟩) rfl rfl rfl
        (Nat.pos_of_ne_zero hlength) (Or.inr ⟨rfl, rfl, rfl, Nat.not_le.1 hroom⟩)

theorem allocInDependency (hs : h.Sound) (kind : ObjectKind) (length : Nat) :
    Sound ((Heap.allocInDependency kind length).run.run h).2 := by
  unfold Heap.allocInDependency
  split
  · exact hs
  · rename_i hlength
    change Sound ((if h.segmentUsed + length ≤ h.segment then do
        set { h with segmentUsed := h.segmentUsed + length }
        some <$> Heap.register h.segmentUsed length kind none
      else return none : HeapM (Option Word)).run.run h).2
    split
    · rename_i hroom
      exact hs.insert (o := ⟨h.segmentUsed, length, kind, none, readOnlyByDefault kind, ∅⟩) rfl rfl rfl
        (Nat.pos_of_ne_zero hlength) (Or.inl ⟨Nat.le_refl _, Nat.le_refl _, hroom, rfl⟩)
    · exact hs

theorem after (hs : h.Sound) : ∀ c : HeapCall, (c.after h).Sound
  | .alloc kind length name? => hs.alloc kind length name?
  | .allocInDependency kind length => hs.allocInDependency kind length
  | .setWord a index w => hs.setWord a index w
  | .setPointer a index target? readOnly? => hs.setPointer a index target? readOnly?
  | .setReadOnly _ _ => hs.updateObject fun _ => ⟨rfl, rfl⟩
  | .substitute _ _ => hs.revise rfl rfl rfl rfl fun _ x hx => ⟨x, hx, rfl, rfl⟩
  | .exclude _ => hs.revise rfl rfl rfl rfl fun _ x hx => ⟨x, hx, rfl, rfl⟩

end Sound

theorem Made.sound (made : h.Made) : h.Sound := by
  induction made with
  | create above room => exact .create above room
  | call _ c ih => exact ih.after c

/-- Word `i` of the object at `a` is a pointer field and holds the address of the object at `t`. -/
def Holds (h : Heap) (a : Word) (i : Nat) (t : Word) : Prop :=
  ∃ o, h.object? a = some o ∧ i ∈ o.fields ∧ i < o.length ∧ h.memory.read (o.start + i) = t ∧
    (h.object? t).isSome = true

/-- A pointer field `i` of `w` leads to one object. -/
theorem Holds.unique {w t t' : Word} {i : Nat} (ht : h.Holds w i t) (ht' : h.Holds w i t') : t = t' := by
  obtain ⟨o, ho, -, -, hread, -⟩ := ht
  obtain ⟨o', ho', -, -, hread', -⟩ := ht'
  obtain rfl := Option.some_inj.1 (ho.symm.trans ho')
  exact hread.symm.trans hread'

/-- The reference `e` is to an object of `h`, and tells its kind and size. -/
def Targets (h : Heap) (e : Edge) : Prop :=
  ∃ t, h.object? e.pointee = some t ∧ e.kind = t.kind ∧ e.size = t.size

theorem edges_eq_ok {a : Word} {held : List Edge} (hok : h.edges a = .ok held) :
    h.object? a = none ∧ held = [] ∨ ∃ o, h.object? a = some o ∧ (∀ i ∈ o.fields, i < o.length) ∧
      held = o.fields.toList.filterMap fun (i, r) => h.fieldEdge? a o i r := by
  unfold edges at hok
  split at hok
  · rename_i hnone
    cases hok
    exact Or.inl ⟨hnone, rfl⟩
  · rename_i o ho
    split at hok
    · rename_i hin
      cases hok
      refine Or.inr ⟨o, ho, fun i hi => ?_, rfl⟩
      unfold HeapObject.fieldsInside at hin
      exact of_decide_eq_true (List.all_eq_true.1 hin i (Std.TreeMap.mem_keys.2 hi))
    · cases hok

/-- A reference `e` that a traversal reports of the object at `a` is a field `i` that holds the
    address of an object. -/
theorem holds_of_mem_edges {a : Word} {held : List Edge} (hok : h.edges a = .ok held) {e : Edge}
    (he : e ∈ held) :
    ∃ i, h.Holds a i e.pointee ∧ e.origin? = some ⟨a, a.plus (wordBytes * i)⟩ ∧ h.Targets e := by
  obtain ⟨-, rfl⟩ | ⟨o, ho, hin, rfl⟩ := edges_eq_ok hok
  · cases he
  · obtain ⟨⟨i, r⟩, hmem, hedge⟩ := List.mem_filterMap.1 he
    obtain ⟨t, ht, rfl⟩ := Option.map_eq_some_iff.1 hedge
    have hi : i ∈ o.fields := by
      rw [← Std.TreeMap.isSome_getElem?_iff_mem, Std.TreeMap.mem_toList_iff_getElem?_eq_some.1 hmem]
      rfl
    exact ⟨i, ⟨o, ho, hi, hin i hi, rfl, by rw [ht]; rfl⟩, rfl, t, ht, rfl, rfl⟩

/-- A field `i` that holds the address of an object `t` is reported. -/
theorem mem_edges_of_holds {a t : Word} {i : Nat} {held : List Edge} (hok : h.edges a = .ok held)
    (hholds : h.Holds a i t) :
    ∃ e ∈ held, e.pointee = t ∧ e.origin? = some ⟨a, a.plus (wordBytes * i)⟩ := by
  obtain ⟨o, ho, hi, -, rfl, hsome⟩ := hholds
  obtain ⟨hnone, -⟩ | ⟨o', ho', -, rfl⟩ := edges_eq_ok hok
  · rw [ho] at hnone
    cases hnone
  · obtain rfl : o = o' := Option.some_inj.1 (ho.symm.trans ho')
    obtain ⟨r, hr⟩ := Option.isSome_iff_exists.1 (Std.TreeMap.isSome_getElem?_iff_mem.2 hi)
    obtain ⟨t, ht⟩ := Option.isSome_iff_exists.1 hsome
    let e : Edge :=
      { origin? := some ⟨a, a.plus (wordBytes * i)⟩
        pointee := h.memory.read (o.start + i)
        kind := t.kind
        size := t.size
        readOnly := r.getD t.readOnly }
    have hedge : h.fieldEdge? a o i r = some e := by
      unfold fieldEdge?
      dsimp only
      rw [ht]
      rfl
    exact ⟨e, List.mem_filterMap.2 ⟨(i, r), Std.TreeMap.mem_toList_iff_getElem?_eq_some.2 hr, hedge⟩,
      rfl, rfl⟩

theorem length_edges_le {a : Word} {o : HeapObject} {held : List Edge} (hok : h.edges a = .ok held)
    (ho : h.object? a = some o) : held.length ≤ o.fields.size := by
  obtain ⟨hnone, -⟩ | ⟨o', ho', -, rfl⟩ := edges_eq_ok hok
  · rw [ho] at hnone
    cases hnone
  · obtain rfl : o = o' := Option.some_inj.1 (ho.symm.trans ho')
    rw [← Std.TreeMap.length_toList]
    exact List.length_filterMap_le ..

/-- How many pointer fields those of `objects` have that were not `met` yet. -/
def unmetFields (met : Word → Bool) (objects : List (Word × HeapObject)) : Nat :=
  (objects.map fun p => if met p.1 then 0 else p.2.fields.size).sum

theorem unmetFields_cons (met : Word → Bool) (p : Word × HeapObject) (xs : List (Word × HeapObject)) :
    unmetFields met (p :: xs) = (if met p.1 then 0 else p.2.fields.size) + unmetFields met xs :=
  List.sum_cons ..

theorem unmetFields_le (h : Heap) (met : Word → Bool) :
    unmetFields met h.objects.toList ≤ h.fieldCount := by
  have hfold : ∀ (xs : List (Word × HeapObject)) (n : Nat),
      n + unmetFields met xs ≤ xs.foldl (fun n p => n + p.2.fields.size) n := by
    intro xs
    induction xs with
    | nil => intro n; exact Nat.le_refl n
    | cons x xs ih =>
      intro n
      have := ih (n + x.2.fields.size)
      rw [unmetFields_cons, List.foldl_cons]
      split <;> omega
  have := hfold h.objects.toList 0
  unfold fieldCount
  rw [Std.TreeMap.foldl_eq_foldl_toList]
  omega

theorem unmetFields_mono {met met' : Word → Bool} (hmet : ∀ a, met a = true → met' a = true)
    (xs : List (Word × HeapObject)) : unmetFields met' xs ≤ unmetFields met xs := by
  induction xs with
  | nil => exact Nat.le_refl _
  | cons x xs ih =>
    rw [unmetFields_cons, unmetFields_cons]
    refine Nat.add_le_add ?_ ih
    split
    · exact Nat.zero_le _
    · rename_i hx
      exact Nat.le_of_eq (if_neg fun hm => hx (hmet _ hm)).symm

/-- An object `o` that is met leaves as many fewer fields as it has. -/
theorem unmetFields_meet {met met' : Word → Bool} {a : Word} {o : HeapObject}
    (hmet : ∀ a, met a = true → met' a = true) (ho : h.object? a = some o) (hnew : met a = false)
    (hnow : met' a = true) :
    o.fields.size + unmetFields met' h.objects.toList ≤ unmetFields met h.objects.toList := by
  have hsplit : ∀ xs : List (Word × HeapObject), (a, o) ∈ xs →
      o.fields.size + unmetFields met' xs ≤ unmetFields met xs := by
    intro xs
    induction xs with
    | nil => nofun
    | cons x xs ih =>
      intro hx
      rw [unmetFields_cons, unmetFields_cons]
      rcases List.mem_cons.1 hx with rfl | hx
      · rw [if_pos hnow, if_neg (by rw [hnew]; nofun), Nat.zero_add]
        exact Nat.add_le_add_left (unmetFields_mono hmet xs) _
      · have hstep : (if met' x.1 then 0 else x.2.fields.size) ≤
            if met x.1 then 0 else x.2.fields.size := by
          have := unmetFields_mono hmet [x]
          rwa [unmetFields_cons, unmetFields_cons] at this
        have := ih hx
        omega
  exact hsplit _ (Std.TreeMap.mem_toList_iff_getElem?_eq_some.2 ho)

/-- The words of the object at `a`, by index. -/
def cellsAt (h : Heap) (a : Word) : List Nat :=
  match h.object? a with
  | some o => List.range' o.start o.length
  | none => []

/-- Different objects `xs` together have no more words than the heap. -/
theorem Sound.sum_cells_le (hs : h.Sound) {xs : List Word} (hnodup : xs.Nodup) :
    (xs.map fun a => (h.cellsAt a).length).sum ≤ h.extent := by
  have hcells : ∀ {a i}, i ∈ h.cellsAt a →
      ∃ o, h.object? a = some o ∧ o.start ≤ i ∧ i < o.start + o.length := by
    intro a i hi
    unfold cellsAt at hi
    split at hi
    · rename_i o ho
      exact ⟨o, ho, List.mem_range'_1.1 hi⟩
    · cases hi
  have hall : (xs.flatMap h.cellsAt).Nodup := by
    refine List.nodup_flatMap.2 ⟨fun a _ => ?_, hnodup.imp fun hne => ?_⟩
    · unfold cellsAt
      split
      · exact List.nodup_range'
      · exact List.nodup_nil
    · intro i hi hi'
      obtain ⟨o, ho, hlow, hhigh⟩ := hcells hi
      obtain ⟨o', ho', hlow', hhigh'⟩ := hcells hi'
      have := hs.apart _ o _ o' ho ho' hne
      omega
  have hsub : xs.flatMap h.cellsAt ⊆ List.range h.extent := by
    intro i hi
    obtain ⟨a, -, hi⟩ := List.mem_flatMap.1 hi
    obtain ⟨o, ho, -, hhigh⟩ := hcells hi
    exact List.mem_range.2 (Nat.lt_of_lt_of_le hhigh (hs.end_le ho))
  have := (List.subperm_of_subset hall hsub).length_le
  rwa [List.length_flatMap, List.length_range] at this

end Heap

end SnapshotArchive
