import SnapshotArchive.Proofs.Preorder

/-!
Calls on a heap that fail. They leave the heap as it was, but for one: to make a word past the end of an
object a pointer field is refused after the field was recorded. Such a field stays, and no traversal can look
into the object from then on. Nothing else puts a pointer field past the end of its object.
-/

namespace SnapshotArchive

namespace HeapCall

/-- The fault that a result is, if it is one. -/
def faultOf {α : Type} : Except Fault α → Option Fault
  | .ok _ => none
  | .error f => some f

/-- The fault by which a call on `h` fails, if it does. -/
def fault? (h : Heap) : HeapCall → Option Fault
  | alloc kind length name? => faultOf ((Heap.alloc kind length name?).run.run h).1
  | allocInDependency kind length => faultOf ((Heap.allocInDependency kind length).run.run h).1
  | setWord a index w => faultOf ((Heap.setWord a index w).run.run h).1
  | setPointer a index target? readOnly? => faultOf ((Heap.setPointer a index target? readOnly?).run.run h).1
  | setReadOnly a readOnly => faultOf ((Heap.setReadOnly a readOnly).run.run h).1
  | substitute _ _ | exclude _ => none

/-- The calls that `h` refuses: an object without words or beyond the address space, and a word past
    the end of an object. -/
def Refused (h : Heap) : HeapCall → Prop
  | alloc _ length _ => length = 0 ∨ addressLimit ≤ h.base.toNat + wordBytes * (h.extent + length)
  | allocInDependency _ length => length = 0
  | setWord a index _ | setPointer a index _ _ => ∀ o, h.object? a = some o → o.length ≤ index
  | setReadOnly _ _ | substitute _ _ | exclude _ => False

end HeapCall

namespace Heap

variable {h : Heap} {a b : Word} {i : Nat}

/-- The heap `h` with word `index` of the object at `a` recorded as a pointer field. -/
def withField (h : Heap) (a : Word) (index : Nat) (readOnly? : Option Bool) : Heap :=
  match h.object? a with
  | some o => { h with objects := h.objects.insert a (o.setField index readOnly?) }
  | none => h

theorem object?_updateObject (h : Heap) (a b : Word) (f : HeapObject → HeapObject) :
    Heap.object? ((updateObject a f).run.run h).2 b = if a = b then (h.object? a).map f else h.object? b := by
  rw [updateObject, run_modify]
  cases ho : h.object? a with
  | none =>
    by_cases hab : a = b
    · rw [if_pos hab, ← hab]
      exact ho
    · rw [if_neg hab]
  | some o => exact object?_insert _ h.objects a b (f o) rfl

theorem setWord_cases (h : Heap) (a : Word) (index : Nat) (w : Word) :
    (∃ o, h.object? a = some o ∧ index < o.length ∧
      (setWord a index w).run.run h = (.ok (), { h with memory := h.memory.write (o.start + index) w })) ∨
    (∀ o, h.object? a = some o → o.length ≤ index) ∧
      (setWord a index w).run.run h = (.error .outOfBounds, h) := by
  rw [setWord, run_get_bind]
  cases ho : h.object? a with
  | none => exact .inr ⟨fun _ hsome => (by cases hsome), rfl⟩
  | some o =>
    by_cases hi : index < o.length
    · exact .inl ⟨o, rfl, hi, by dsimp only; rw [if_pos hi]; rfl⟩
    · refine .inr ⟨fun _ ho' => Option.some_inj.1 ho' ▸ Nat.not_lt.1 hi, ?_⟩
      dsimp only
      rw [if_neg hi]
      rfl

/-- No object is at `start`, where the next one will be made. -/
theorem Sound.object?_eq_none (hs : h.Sound) {start : Nat} (hstart : start ≤ h.extent)
    (hfree : start = h.extent ∨ start = h.segmentUsed ∧ start < h.segment) :
    h.object? (h.addressOf start) = none := by
  refine Option.eq_none_iff_forall_ne_some.2 fun o ho => ?_
  have hplace := hs.toNat_place ho
  have hinside := hs.inside _ o ho
  have hfilled := hs.filled _ o ho
  have hsegment := hs.segment
  rw [hs.toNat_addressOf hstart] at hplace
  unfold wordBytes at hplace
  omega

/-- Fields and length of the object at `b` tell which of its fields lie past the end. -/
theorem overhangs_congr {h' : Heap}
    (hobjects : (h'.object? b).map (fun o => (o.fields, o.length)) =
      (h.object? b).map fun o => (o.fields, o.length)) :
    h'.Overhangs b i ↔ h.Overhangs b i := by
  unfold Overhangs
  cases ho : h.object? b <;> cases ho' : h'.object? b <;> rw [ho, ho'] at hobjects <;>
    simp_all

/-- A new object `o` has no pointer fields. -/
theorem overhangs_insert {h' : Heap} {o : HeapObject} (hnone : h.object? (h.addressOf o.start) = none)
    (hfields : o.fields = ∅) (hobjects : h'.objects = h.objects.insert (h.addressOf o.start) o) :
    h'.Overhangs b i ↔ h.Overhangs b i := by
  have hget := object?_insert h' h.objects (h.addressOf o.start) b o hobjects
  by_cases hb : h.addressOf o.start = b
  · rw [if_pos hb] at hget
    subst hb
    simp [Overhangs, hget, hnone, hfields]
  · rw [if_neg hb] at hget
    exact overhangs_congr (by rw [hget]; rfl)

theorem object?_withField (h : Heap) (a b : Word) (index : Nat) (readOnly? : Option Bool) :
    (h.withField a index readOnly?).object? b =
      if a = b then (h.object? a).map (·.setField index readOnly?) else h.object? b :=
  object?_updateObject h a b (·.setField index readOnly?)

/-- To record field `i` adds this field, and it lies past the end of the object or not. -/
theorem overhangs_withField {j : Nat} (readOnly? : Option Bool) :
    (h.withField a i readOnly?).Overhangs b j ↔
      h.Overhangs b j ∨ a = b ∧ i = j ∧ ∃ o, h.object? a = some o ∧ o.length ≤ i := by
  unfold Overhangs
  rw [object?_withField]
  by_cases hab : a = b
  · subst hab
    cases ho : h.object? a with
    | none => simp
    | some o =>
      simp only [if_true, Option.map_some, Option.some.injEq, exists_eq_left', true_and,
        HeapObject.setField, Std.TreeMap.mem_insert, Std.LawfulEqCmp.compare_eq_iff_eq]
      grind
  · simp [hab]

theorem run_setPointer (h : Heap) (a : Word) (index : Nat) (target? : Option Word) (readOnly? : Option Bool) :
    (setPointer a index target? readOnly?).run.run h =
      (setWord a index (target?.getD 0)).run.run (h.withField a index readOnly?) := rfl

theorem alloc_cases (h : Heap) (kind : ObjectKind) (length : Nat) (name? : Option String) :
    (HeapCall.alloc kind length name?).Refused h ∧
      (∃ f, (alloc kind length name?).run.run h = (.error f, h)) ∨
    ¬ (HeapCall.alloc kind length name?).Refused h ∧
      (alloc kind length name?).run.run h = (.ok (h.addressOf h.extent),
        { h with
          extent := h.extent + length
          objects := h.objects.insert (h.addressOf h.extent)
            ⟨h.extent, length, kind, name?, readOnlyByDefault kind, ∅⟩ }) := by
  by_cases hlength : length = 0
  · exact .inl ⟨.inl hlength, .emptyObject, by rw [alloc, if_pos hlength]; rfl⟩
  have hrun : (alloc kind length name?).run.run h =
      (if addressLimit ≤ h.base.toNat + wordBytes * (h.extent + length) then throw .outOfBounds
        else do
          set { h with extent := h.extent + length }
          register h.extent length kind name? : HeapM Word).run.run h := by
    rw [alloc, if_neg hlength]
    rfl
  rw [hrun]
  by_cases hroom : addressLimit ≤ h.base.toNat + wordBytes * (h.extent + length)
  · exact .inl ⟨.inr hroom, .outOfBounds, by rw [if_pos hroom]; rfl⟩
  · exact .inr ⟨not_or.2 ⟨hlength, hroom⟩, by rw [if_neg hroom]; rfl⟩

theorem allocInDependency_cases (h : Heap) (kind : ObjectKind) (length : Nat) :
    (HeapCall.allocInDependency kind length).Refused h ∧
      (∃ f, (allocInDependency kind length).run.run h = (.error f, h)) ∨
    ¬ (HeapCall.allocInDependency kind length).Refused h ∧
      ((allocInDependency kind length).run.run h = (.ok none, h) ∨
        h.segmentUsed + length ≤ h.segment ∧
        (allocInDependency kind length).run.run h = (.ok (some (h.addressOf h.segmentUsed)),
          { h with
            segmentUsed := h.segmentUsed + length
            objects := h.objects.insert (h.addressOf h.segmentUsed)
              ⟨h.segmentUsed, length, kind, none, readOnlyByDefault kind, ∅⟩ })) := by
  by_cases hlength : length = 0
  · exact .inl ⟨hlength, .emptyObject, by rw [allocInDependency, if_pos hlength]; rfl⟩
  refine .inr ⟨hlength, ?_⟩
  have hrun : (allocInDependency kind length).run.run h =
      (if h.segmentUsed + length ≤ h.segment then do
          set { h with segmentUsed := h.segmentUsed + length }
          some <$> register h.segmentUsed length kind none
        else return none : HeapM (Option Word)).run.run h := by
    rw [allocInDependency, if_neg hlength]
    rfl
  rw [hrun]
  by_cases hroom : h.segmentUsed + length ≤ h.segment
  · exact .inr ⟨hroom, by rw [if_pos hroom]; rfl⟩
  · exact .inl (by rw [if_neg hroom]; rfl)

end Heap

namespace HeapCall

open Heap

variable {h : Heap}

/-- What a call on `h` that fails leaves behind. -/
def leftover (h : Heap) : HeapCall → Heap
  | setPointer a index _ readOnly? => h.withField a index readOnly?
  | _ => h

/-- A call `c` fails if and only if it is one of those that are refused, and only a pointer leaves a
    trace then. -/
theorem fault?_exact (h : Heap) : ∀ c : HeapCall,
    c.Refused h ∧ (∃ f, c.fault? h = some f) ∧ c.after h = c.leftover h ∨ ¬ c.Refused h ∧ c.fault? h = none
  | alloc kind length name? => by
    obtain ⟨hrefused, f, hrun⟩ | ⟨hgranted, hrun⟩ := alloc_cases h kind length name?
    · exact .inl ⟨hrefused, ⟨f, by rw [fault?, hrun, faultOf]⟩, by rw [after, hrun]; rfl⟩
    · exact .inr ⟨hgranted, by rw [fault?, hrun, faultOf]⟩
  | allocInDependency kind length => by
    obtain ⟨hrefused, f, hrun⟩ | ⟨hgranted, hrun | ⟨-, hrun⟩⟩ := allocInDependency_cases h kind length
    · exact .inl ⟨hrefused, ⟨f, by rw [fault?, hrun, faultOf]⟩, by rw [after, hrun]; rfl⟩
    · exact .inr ⟨hgranted, by rw [fault?, hrun, faultOf]⟩
    · exact .inr ⟨hgranted, by rw [fault?, hrun, faultOf]⟩
  | setWord a index w => by
    obtain ⟨o, ho, hi, hrun⟩ | ⟨hend, hrun⟩ := setWord_cases h a index w
    · exact .inr ⟨fun hrefused => absurd (hrefused o ho) (Nat.not_le.2 hi), by rw [fault?, hrun, faultOf]⟩
    · exact .inl ⟨hend, ⟨_, by rw [fault?, hrun, faultOf]⟩, by rw [after, hrun]; rfl⟩
  | setPointer a index target? readOnly? => by
    have hobject := object?_withField h a a index readOnly?
    rw [if_pos rfl] at hobject
    obtain ⟨o, ho, hi, hrun⟩ | ⟨hend, hrun⟩ :=
      setWord_cases (h.withField a index readOnly?) a index (target?.getD 0)
    · obtain ⟨x, hx, rfl⟩ := Option.map_eq_some_iff.1 (hobject.symm.trans ho)
      exact .inr ⟨fun hrefused => absurd (hrefused x hx) (Nat.not_le.2 hi),
        by rw [fault?, run_setPointer, hrun, faultOf]⟩
    · refine .inl ⟨fun x hx => hend (x.setField index readOnly?) (by rw [hobject, hx]; rfl),
        ⟨_, by rw [fault?, run_setPointer, hrun, faultOf]⟩, ?_⟩
      rw [after, run_setPointer, hrun, leftover]
  | setReadOnly a readOnly => .inr ⟨id, rfl⟩
  | substitute _ _ => .inr ⟨id, rfl⟩
  | exclude _ => .inr ⟨id, rfl⟩

/-- The call `c` records word `i` of the object at `a` as a pointer field, past the end of the
    object. -/
def Spoils (h : Heap) (a : Word) (i : Nat) (c : HeapCall) : Prop :=
  (∃ target? readOnly?, c = .setPointer a i target? readOnly?) ∧ ∃ o, h.object? a = some o ∧ o.length ≤ i

/-- A field `j` of the object at `b` lies past its end after a call if it did before, or if the call
    spoils it. -/
theorem overhangs_after (hs : h.Sound) {b : Word} {j : Nat} : ∀ c : HeapCall,
    (c.after h).Overhangs b j ↔ h.Overhangs b j ∨ c.Spoils h b j
  | alloc kind length name? => by
    rw [or_iff_left (by simp [Spoils]), after]
    obtain ⟨-, f, hrun⟩ | ⟨-, hrun⟩ := alloc_cases h kind length name? <;> rw [hrun]
    exact overhangs_insert (o := ⟨h.extent, length, kind, name?, readOnlyByDefault kind, ∅⟩)
      (hs.object?_eq_none (Nat.le_refl _) (.inl rfl)) rfl rfl
  | allocInDependency kind length => by
    rw [or_iff_left (by simp [Spoils]), after]
    obtain ⟨-, f, hrun⟩ | ⟨hgranted, hrun | ⟨hroom, hrun⟩⟩ := allocInDependency_cases h kind length <;>
      rw [hrun]
    have hlength : 0 < length := Nat.pos_of_ne_zero hgranted
    have hsegment := hs.segment
    exact overhangs_insert (o := ⟨h.segmentUsed, length, kind, none, readOnlyByDefault kind, ∅⟩)
      (hs.object?_eq_none (by dsimp only; omega) (.inr ⟨rfl, by dsimp only; omega⟩)) rfl rfl
  | setWord a index w => by
    rw [or_iff_left (by simp [Spoils]), after]
    obtain ⟨o, -, -, hrun⟩ | ⟨-, hrun⟩ := setWord_cases h a index w <;> rw [hrun]
    exact overhangs_congr rfl
  -- the one call that adds a field: it does so whether or not the word can be stored
  | setPointer a index target? readOnly? => by
    have hafter : ((setPointer a index target? readOnly?).after h).Overhangs b j ↔
        (h.withField a index readOnly?).Overhangs b j := by
      rw [after, run_setPointer]
      obtain ⟨o, -, -, hrun⟩ | ⟨-, hrun⟩ :=
        setWord_cases (h.withField a index readOnly?) a index (target?.getD 0) <;> rw [hrun]
      exact overhangs_congr rfl
    rw [hafter, overhangs_withField]
    refine or_congr_right ⟨?_, ?_⟩
    · rintro ⟨rfl, rfl, hend⟩
      exact ⟨⟨target?, readOnly?, rfl⟩, hend⟩
    · rintro ⟨⟨_, _, hc⟩, hend⟩
      cases hc
      exact ⟨rfl, rfl, hend⟩
  | setReadOnly a readOnly => by
    rw [or_iff_left (by simp [Spoils]), after, Heap.setReadOnly]
    refine overhangs_congr ?_
    rw [object?_updateObject]
    split
    · rename_i hab
      rw [← hab, Option.map_map]
      rfl
    · rfl
  | substitute _ _ | exclude _ => by
    rw [or_iff_left (by simp [Spoils]), after]
    exact overhangs_congr rfl

end HeapCall

namespace Heap

open HeapCall

/-- Some of `calls`, on the heap as it was then, recorded word `i` of the object at `a` as a pointer
    field past the end of the object. -/
def Spoiled (h : Heap) (calls : List HeapCall) (a : Word) (i : Nat) : Prop :=
  ∃ before c later, calls = before ++ c :: later ∧ c.Spoils (h.afterCalls before) a i

theorem spoiled_cons (h : Heap) (c : HeapCall) (calls : List HeapCall) (a : Word) (i : Nat) :
    h.Spoiled (c :: calls) a i ↔ c.Spoils h a i ∨ (c.after h).Spoiled calls a i := by
  constructor
  · rintro ⟨_ | ⟨x, before⟩, c', later, hcalls, hspoils⟩
    · obtain ⟨rfl, -⟩ := List.cons.inj hcalls
      exact .inl hspoils
    · obtain ⟨rfl, htail⟩ := List.cons.inj hcalls
      exact .inr ⟨before, c', later, htail, hspoils⟩
  · rintro (hspoils | ⟨before, c', later, rfl, hspoils⟩)
    · exact ⟨[], c, calls, rfl, hspoils⟩
    · exact ⟨c :: before, c', later, rfl, hspoils⟩

/-- Fields past the end of an object are left by the `calls` that recorded them, and stay. -/
theorem overhangs_afterCalls {h : Heap} (made : h.Made) {a : Word} {i : Nat} (calls : List HeapCall) :
    (h.afterCalls calls).Overhangs a i ↔ h.Overhangs a i ∨ h.Spoiled calls a i := by
  induction calls generalizing h with
  | nil => simp [afterCalls, Spoiled]
  | cons c calls ih =>
    have hrest := ih (made.call c)
    rw [spoiled_cons, ← or_assoc, ← overhangs_after made.sound c]
    exact hrest

/-- Where no field lies past the end of its object, no traversal from `root` fails. -/
theorem visit_ok {h : Heap} (hinside : ∀ a i, ¬ h.Overhangs a i) {σ : Type} (root : Word)
    (f : Edge → StateM σ Visit) (s : σ) :
    ((h.toHost.visit root fun e => ExceptT.lift (f e)).run.run s).1 = .ok () := by
  have hedges : ∀ a, ∃ held, h.toHost.edges a = .ok held := fun a => edges_isOk_iff.2 (hinside a)
  unfold Host.visit
  cases hroot : h.toHost.rootEdge? root with
  | none => rfl
  | some e =>
    obtain ⟨-, -, s', -, -, hrun⟩ := Host.walks_of_walk hedges f (h.toHost.edgeCount + 1) [e] s
    exact congrArg Prod.fst hrun

/-- A traversal that is to look into an object at `a` with a field past its end fails. -/
theorem visit_error {h : Heap} {a : Word} {i : Nat} (hover : h.Overhangs a i) {σ : Type}
    (f : Edge → StateM σ Visit) (s : σ) (hf : ∀ e, ((f e).run s).1 = .recurse) :
    ((h.toHost.visit a fun e => ExceptT.lift (f e)).run.run s).1 = .error (.fault .outOfBounds) := by
  obtain ⟨o, ho, hi, hlength⟩ := hover
  have hedges : h.toHost.edges a = .error .outOfBounds := by
    simp only [toHost, edges, ho]
    exact if_neg fun hinside => absurd (HeapObject.fieldsInside_iff.1 hinside i hi) (Nat.not_lt.2 hlength)
  have hroot : h.toHost.rootEdge? a = some (rootEdge a o) := by simp only [toHost, ho, Option.map_some]
  rw [Host.visit, hroot]
  dsimp only
  rw [Host.walk, Lockstep.run_bind, Host.run_lift, hf]
  dsimp only
  rw [show (rootEdge a o).pointee = a from rfl, hedges]
  rfl

/-- What `calls` that fail do to a heap. They are the calls with no words, no room or an index past
    the end of the object, and they change nothing, but for those that would make a word a pointer
    field: these leave the field. A field lies past the end of its object only where such a call
    left it, and if and only if there is none, no traversal fails. -/
theorem failing_calls_exact {base : Word} {segment : Nat} (above : 0 < base.toNat)
    (room : base.toNat + wordBytes * segment < addressLimit) (calls : List HeapCall) :
    let h := (create base segment).afterCalls calls
    (∀ c : HeapCall, (c.fault? h).isSome = true ↔ c.Refused h) ∧
      (∀ c : HeapCall, (c.fault? h).isSome = true → c.after h = c.leftover h) ∧
      (∀ a i, h.Overhangs a i ↔ (create base segment).Spoiled calls a i) ∧
      ((∀ (σ : Type) root (f : Edge → StateM σ Visit) s,
          ((h.toHost.visit root fun e => ExceptT.lift (f e)).run.run s).1 = .ok ()) ↔
        ∀ a i, ¬ (create base segment).Spoiled calls a i) := by
  intro h
  have hover : ∀ a i, h.Overhangs a i ↔ (create base segment).Spoiled calls a i := by
    intro a i
    have hnone : ¬ (create base segment).Overhangs a i := by
      rintro ⟨o, ho, -⟩
      simp [create, object?] at ho
    exact (overhangs_afterCalls (.create above room) calls).trans (or_iff_right hnone)
  refine ⟨fun c => ?_, fun c hf => ?_, hover, fun hok a i hspoiled => ?_, fun hnever σ root f s => ?_⟩
  · obtain ⟨hrefused, ⟨f, hf⟩, -⟩ | ⟨hgranted, hf⟩ := fault?_exact h c <;> simp [*]
  · obtain ⟨-, -, hafter⟩ | ⟨-, hnone⟩ := fault?_exact h c
    · exact hafter
    · cases hf.symm.trans (congrArg _ hnone)
  · have hfault := visit_error ((hover a i).2 hspoiled) (fun _ => (pure .recurse : StateM Unit Visit)) ()
      fun _ => rfl
    cases hfault.symm.trans (hok Unit a _ ())
  · exact visit_ok (fun a i ho => hnever a i ((hover a i).1 ho)) root f s

/-- One word past the end of an object becomes a pointer field of it, although the call fails. -/
def spoiling : List HeapCall :=
  [.alloc .other 1 none, .setPointer 0x100000000000 1 (some 0x100000000000) none]

/-- The call fails, and from then on so does a traversal. -/
theorem failing_calls_exact_spoiling :
    (HeapCall.setPointer 0x100000000000 1 (some 0x100000000000) none).fault?
        ((create 0x100000000000 0).afterCalls [.alloc .other 1 none]) = some .outOfBounds ∧
      ((create 0x100000000000 0).afterCalls spoiling).Overhangs 0x100000000000 1 ∧
      ¬ ∀ (σ : Type) root (f : Edge → StateM σ Visit) s,
        ((((create 0x100000000000 0).afterCalls spoiling).toHost.visit root fun e =>
          ExceptT.lift (f e)).run.run s).1 = .ok () := by
  have hspoiled : (create 0x100000000000 0).Spoiled spoiling 0x100000000000 1 :=
    ⟨[.alloc .other 1 none], _, [], rfl, ⟨_, _, rfl⟩, _, rfl, Nat.le_refl 1⟩
  obtain ⟨-, -, hover, hvisit⟩ :=
    @failing_calls_exact 0x100000000000 0 (by decide) (by decide) spoiling
  exact ⟨by decide +kernel, (hover _ _).2 hspoiled, fun hok => hvisit.1 hok _ _ hspoiled⟩

end Heap

end SnapshotArchive
