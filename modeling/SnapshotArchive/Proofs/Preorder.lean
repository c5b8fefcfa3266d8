import Mathlib.Data.List.Nodup
import SnapshotArchive.Proofs.HeapShape
import SnapshotArchive.Proofs.Lockstep

/-!
The order of a traversal. References that were found and not reported yet lie on one stack, those of many
objects at once, and what is looked into next depends on all answers before. As long as no object is looked
into twice, the traversal ends by itself, before its fuel does; each object that it looks into has its own
references reported, each of them once, and those of what they lead to right after them.
-/

namespace SnapshotArchive

/-- A reference that was reported, and the answer to it. -/
structure Report where
  edge : Edge
  answer : Visit
  deriving DecidableEq

namespace Edge

/-- The object that holds the reference `e`. -/
def enclosing? (e : Edge) : Option Word := e.origin?.map (·.enclosing)

/-- Those references of `es` that the object at `a` holds. -/
def heldBy (a : Word) (es : List Edge) : List Edge := es.filter fun e => e.enclosing? = some a

variable {a : Word} {es : List Edge}

theorem heldBy_append (a : Word) (es es' : List Edge) :
    heldBy a (es ++ es') = heldBy a es ++ heldBy a es' := List.filter_append ..

theorem heldBy_cons (a : Word) (e : Edge) (es : List Edge) :
    heldBy a (e :: es) = heldBy a [e] ++ heldBy a es := heldBy_append a [e] es

theorem heldBy_eq_nil (h : ∀ e ∈ es, e.enclosing? ≠ some a) : heldBy a es = [] :=
  List.filter_eq_nil_iff.2 fun e he => by simpa using h e he

theorem heldBy_eq_self (h : ∀ e ∈ es, e.enclosing? = some a) : heldBy a es = es :=
  List.filter_eq_self.2 fun e he => by simpa using h e he

end Edge

namespace Report

/-- The object that is looked into after the report `r`. -/
def entered? (r : Report) : Option Word :=
  match r.answer with
  | .recurse => some r.edge.pointee
  | .skip => none

/-- The objects that are looked into after the reports `rs`. -/
def entered (rs : List Report) : List Word := rs.filterMap entered?

/-- The references that `rs` report. -/
def references (rs : List Report) : List Edge := rs.map (·.edge)

variable {e : Edge} {rs rs' : List Report}

@[simp] theorem entered_nil : entered [] = [] := rfl

@[simp] theorem entered_skip : entered (⟨e, .skip⟩ :: rs) = entered rs := rfl

@[simp] theorem entered_recurse : entered (⟨e, .recurse⟩ :: rs) = e.pointee :: entered rs := rfl

@[simp] theorem entered_append : entered (rs ++ rs') = entered rs ++ entered rs' :=
  List.filterMap_append

@[simp] theorem references_nil : references [] = [] := rfl

@[simp] theorem references_cons (r : Report) : references (r :: rs) = r.edge :: references rs := rfl

@[simp] theorem references_append : references (rs ++ rs') = references rs ++ references rs' := List.map_append

theorem exists_of_mem_entered {a : Word} (ha : a ∈ entered rs) : ∃ e ∈ references rs, e.pointee = a := by
  obtain ⟨⟨e, answer⟩, hr, hentered⟩ := List.mem_filterMap.1 ha
  cases answer with
  | recurse => exact ⟨e, List.mem_map_of_mem hr, Option.some_inj.1 hentered⟩
  | skip => exact nomatch hentered

end Report

namespace Host

open Report

variable {σ : Type}

/-- A traversal that nothing bounds: with the references `pending` on its stack it makes some reports to a
    callback `f` in state `s`, and is left with `pending'` and `s'`. -/
inductive Walks (host : Host) (f : Edge → StateM σ Visit) :
    (pending : List Edge) → (s : σ) → List Report → (pending' : List Edge) → (s' : σ) → Prop where
  | stop {pending : List Edge} {s : σ} : Walks host f pending s [] pending s
  | skip {e : Edge} {rest pending : List Edge} {s t s' : σ} {rs : List Report}
      (answer : (f e).run s = (.skip, t)) (more : Walks host f rest t rs pending s') :
      Walks host f (e :: rest) s (⟨e, .skip⟩ :: rs) pending s'
  | recurse {e : Edge} {held rest pending : List Edge} {s t s' : σ} {rs : List Report}
      (answer : (f e).run s = (.recurse, t)) (holds : host.edges e.pointee = .ok held)
      (more : Walks host f (held ++ rest) t rs pending s') :
      Walks host f (e :: rest) s (⟨e, .recurse⟩ :: rs) pending s'

/-- Depth-first preorder: after the report of a reference come, if its object is looked into, all
    reports that are due to what the object holds, and then those of the next reference. -/
inductive Preorder (host : Host) : List Edge → List Report → Prop where
  | nil : Preorder host [] []
  | skip {e : Edge} {rest : List Edge} {after : List Report} (next : Preorder host rest after) :
      Preorder host (e :: rest) (⟨e, .skip⟩ :: after)
  | recurse {e : Edge} {held rest : List Edge} {below after : List Report}
      (holds : host.edges e.pointee = .ok held) (inner : Preorder host held below)
      (next : Preorder host rest after) :
      Preorder host (e :: rest) (⟨e, .recurse⟩ :: (below ++ after))

/-- How many references the object at `a` holds. -/
def heldCount (host : Host) (a : Word) : Nat := (host.edges a).toOption.elim 0 List.length

variable {host : Host} {f : Edge → StateM σ Visit} {pending pending' : List Edge} {s s' : σ}
  {rs : List Report}

theorem heldCount_eq {a : Word} {held : List Edge} (hheld : host.edges a = .ok held) :
    host.heldCount a = held.length := by
  rw [heldCount, hheld]
  rfl

/-- Every reference of `rs` and `pending'` was there at first or is held by an object that was
    looked into. -/
theorem Walks.length_eq (walks : Walks host f pending s rs pending' s') :
    rs.length + pending'.length = pending.length + ((entered rs).map host.heldCount).sum := by
  induction walks with
  | stop => simp
  | skip answer more ih =>
    simp only [entered_skip, List.length_cons]
    omega
  | recurse answer holds more ih =>
    simp only [entered_recurse, List.map_cons, List.sum_cons, List.length_cons, List.length_append,
      heldCount_eq holds] at ih ⊢
    omega

/-- The callback `f` decides how a traversal goes on: of two traversals one is the beginning of the
    other. -/
theorem Walks.prefix_of_done {rs' : List Report} {t : σ} (walks : Walks host f pending s rs' pending' s')
    (done : Walks host f pending s rs [] t) : rs' <+: rs := by
  induction walks generalizing rs with
  | stop => exact List.nil_prefix
  | skip answer more ih =>
    cases done with
    | skip answer' more' =>
      obtain ⟨-, rfl⟩ := Prod.mk.inj (answer.symm.trans answer')
      exact List.cons_prefix_cons.2 ⟨rfl, ih more'⟩
    | recurse answer' => exact nomatch answer.symm.trans answer'
  | recurse answer holds more ih =>
    cases done with
    | skip answer' => exact nomatch answer.symm.trans answer'
    | recurse answer' holds' more' =>
      obtain ⟨-, rfl⟩ := Prod.mk.inj (answer.symm.trans answer')
      obtain rfl := Except.ok.inj (holds.symm.trans holds')
      exact List.cons_prefix_cons.2 ⟨rfl, ih more'⟩

theorem run_lift {α : Type} (m : StateM σ α) (s : σ) :
    (ExceptT.lift m : ExceptT Failure (StateM σ) α).run.run s = (.ok (m.run s).1, (m.run s).2) := rfl

/-- With fuel for `fuel` reports a traversal makes that many, unless nothing is left to report. -/
theorem walks_of_walk (hedges : ∀ a, ∃ held, host.edges a = .ok held) (f : Edge → StateM σ Visit)
    (fuel : Nat) (pending : List Edge) (s : σ) :
    ∃ rs pending' s', Walks host f pending s rs pending' s' ∧ (pending' = [] ∨ rs.length = fuel) ∧
      (host.walk (fun e => ExceptT.lift (f e)) fuel pending).run.run s = (.ok (), s') := by
  induction fuel generalizing pending s with
  | zero => exact ⟨[], pending, s, .stop, .inr rfl, rfl⟩
  | succ fuel ih =>
    cases pending with
    | nil => exact ⟨[], [], s, .stop, .inl rfl, rfl⟩
    | cons e rest =>
      rw [walk, Lockstep.run_bind]
      rw [run_lift]
      rcases hanswer : (f e).run s with ⟨_ | _, t⟩
      · obtain ⟨held, hheld⟩ := hedges e.pointee
        obtain ⟨rs, pending', s', hwalks, hend, hrun⟩ := ih (held ++ rest) t
        refine ⟨⟨e, .recurse⟩ :: rs, pending', s', .recurse hanswer hheld hwalks, ?_, ?_⟩
        · exact hend.imp id fun hlength => by rw [List.length_cons, hlength]
        · dsimp only
          rw [hheld]
          exact hrun
      · obtain ⟨rs, pending', s', hwalks, hend, hrun⟩ := ih rest t
        refine ⟨⟨e, .skip⟩ :: rs, pending', s', .skip hanswer hwalks, ?_, hrun⟩
        exact hend.imp id fun hlength => by rw [List.length_cons, hlength]

namespace Preorder

/-- The reports of `xs` come before those of the references `ys` below them on the stack. -/
theorem split {xs ys : List Edge} (order : Preorder host (xs ++ ys) rs) :
    ∃ upper lower, rs = upper ++ lower ∧ Preorder host xs upper ∧ Preorder host ys lower := by
  induction xs generalizing rs with
  | nil => exact ⟨[], rs, rfl, .nil, order⟩
  | cons x xs ih =>
    cases order with
    | skip next =>
      obtain ⟨upper, lower, rfl, hupper, hlower⟩ := ih next
      exact ⟨_, lower, rfl, .skip hupper, hlower⟩
    | recurse holds inner next =>
      obtain ⟨upper, lower, rfl, hupper, hlower⟩ := ih next
      exact ⟨_, lower, by simp, .recurse holds inner hupper, hlower⟩

/-- What holds of the references `pending` at first, and of those that objects hold, holds of all
    that are reported. -/
theorem forall_reported {P : Edge → Prop} (order : Preorder host pending rs)
    (hheld : ∀ a held, host.edges a = .ok held → ∀ e ∈ held, P e) (hpending : ∀ e ∈ pending, P e) :
    ∀ e ∈ references rs, P e := by
  induction order with
  | nil => nofun
  | skip next ih =>
    obtain ⟨he, hrest⟩ := List.forall_mem_cons.1 hpending
    exact List.forall_mem_cons.2 ⟨he, ih hrest⟩
  | recurse holds inner next ihinner ihnext =>
    obtain ⟨he, hrest⟩ := List.forall_mem_cons.1 hpending
    rw [references_cons, references_append]
    exact List.forall_mem_cons.2
      ⟨he, List.forall_mem_append.2 ⟨ihinner (hheld _ _ holds), ihnext hrest⟩⟩

/-- Those that no object holds are reported as they were in `pending` at first. -/
theorem filter_origin (order : Preorder host pending rs)
    (hheld : ∀ a held, host.edges a = .ok held → ∀ e ∈ held, e.origin? ≠ none) :
    (references rs).filter (·.origin? = none) = pending.filter (·.origin? = none) := by
  have noRoots : ∀ a held, host.edges a = .ok held → held.filter (·.origin? = none) = [] := fun a held hok =>
    List.filter_eq_nil_iff.2 fun e he => by simpa using hheld a held hok e he
  induction order with
  | nil => rfl
  | skip next ih => simp only [references_cons, List.filter_cons, ih]
  | recurse holds inner next ihinner ihnext =>
    simp only [references_cons, references_append, List.filter_cons, List.filter_append, ihinner, ihnext,
      noRoots _ _ holds, List.nil_append]

/-- If no object is looked into twice, the references of an `a` that is looked into are reported as
    it holds them, and of one that is not looked into only those that were on the stack at first. -/
theorem heldBy_references (order : Preorder host pending rs)
    (hfrom : ∀ a held, host.edges a = .ok held → ∀ e ∈ held, e.enclosing? = some a)
    (honce : (entered rs).Nodup) (houter : ∀ e ∈ pending, ∀ a ∈ entered rs, e.enclosing? ≠ some a)
    (a : Word) :
    (a ∈ entered rs → host.edges a = .ok (Edge.heldBy a (references rs))) ∧
      (a ∉ entered rs → Edge.heldBy a (references rs) = Edge.heldBy a pending) := by
  induction order with
  | nil => exact ⟨nofun, fun _ => rfl⟩
  | @skip e rest after next ih =>
    obtain ⟨he, hrest⟩ := List.forall_mem_cons.1 houter
    obtain ⟨hin, hout⟩ := ih honce hrest
    rw [entered_skip] at he ⊢
    rw [references_cons, Edge.heldBy_cons, Edge.heldBy_cons a e rest]
    refine ⟨fun ha => ?_, fun ha => by rw [hout ha]⟩
    rw [hin ha, Edge.heldBy_eq_nil (List.forall_mem_singleton.2 (he a ha)), List.nil_append]
  | @recurse e held rest below after holds inner next ihinner ihnext =>
    simp only [entered_recurse, entered_append, List.nodup_cons, List.mem_append, List.mem_cons,
      references_cons, references_append] at honce houter ⊢
    obtain ⟨hnew, hboth⟩ := honce
    obtain ⟨hbelow, hafter, hapart⟩ := List.nodup_append'.1 hboth
    -- No reference of this object lies on the stack before it is looked into, nor is it looked into below.
    have hheld : ∀ x ∈ held, ∀ b, b ≠ e.pointee → x.enclosing? ≠ some b := fun x hx b hb heq =>
      hb (Option.some_inj.1 (heq.symm.trans (hfrom _ _ holds x hx)))
    obtain ⟨hin, hout⟩ := ihinner hbelow fun x hx b hb => hheld x hx b fun heq => hnew (.inl (heq ▸ hb))
    obtain ⟨hin', hout'⟩ := ihnext hafter fun x hx b hb => houter x (.inr hx) b (.inr (.inr hb))
    have houtside : a = e.pointee ∨ a ∈ entered below ∨ a ∈ entered after →
        Edge.heldBy a [e] = [] ∧ Edge.heldBy a rest = [] := fun ha =>
      ⟨Edge.heldBy_eq_nil (List.forall_mem_singleton.2 (houter e (.inl rfl) a ha)),
        Edge.heldBy_eq_nil fun x hx => houter x (.inr hx) a ha⟩
    rw [Edge.heldBy_cons, Edge.heldBy_append, Edge.heldBy_cons a e rest]
    refine ⟨fun ha => ?_, fun ha => ?_⟩
    · obtain ⟨he, hrest⟩ := houtside ha
      rw [he, List.nil_append]
      rcases ha with rfl | ha | ha
      · rw [hout fun h => hnew (.inl h), hout' fun h => hnew (.inr h), hrest, List.append_nil,
          Edge.heldBy_eq_self (hfrom _ _ holds), holds]
      · rw [hin ha, hout' fun h => hapart ha h, hrest, List.append_nil]
      · have hne : a ≠ e.pointee := fun heq => hnew (.inr (heq ▸ ha))
        rw [hin' ha, hout fun h => hapart h ha, Edge.heldBy_eq_nil fun x hx => hheld x hx a hne,
          List.nil_append]
    · have hne : a ≠ e.pointee := fun heq => ha (.inl heq)
      rw [hout fun h => ha (.inr (.inl h)), hout' fun h => ha (.inr (.inr h)),
        Edge.heldBy_eq_nil fun x hx => hheld x hx a hne, List.nil_append]

end Preorder

/-- The reports `rs` of a traversal that has ended are in preorder. -/
theorem Walks.preorder (walks : Walks host f pending s rs [] s') : Preorder host pending rs := by
  generalize hdone : ([] : List Edge) = pending' at walks
  induction walks with
  | stop => exact hdone ▸ .nil
  | skip answer more ih => exact .skip (ih hdone)
  | recurse answer holds more ih =>
    obtain ⟨below, after, rfl, hbelow, hafter⟩ := (ih hdone).split
    exact .recurse holds hbelow hafter

end Host

theorem HeapObject.fieldsInside_iff {o : HeapObject} :
    o.fieldsInside = true ↔ ∀ i ∈ o.fields, i < o.length := by
  simp [HeapObject.fieldsInside]

namespace Heap

open Report

variable {h : Heap} {a : Word} {o : HeapObject} {held : List Edge} {σ : Type}

/-- Word `i` is a pointer field of the object at `a`, although the object ends below it. -/
def Overhangs (h : Heap) (a : Word) (i : Nat) : Prop :=
  ∃ o, h.object? a = some o ∧ i ∈ o.fields ∧ o.length ≤ i

/-- The object at `a` can be looked into if its pointer fields are words of it. -/
theorem edges_isOk_iff : (∃ held, h.edges a = .ok held) ↔ ∀ i, ¬ h.Overhangs a i := by
  constructor
  · rintro ⟨held, hok⟩ i ⟨o, ho, hi, hlength⟩
    obtain ⟨hnone, -⟩ | ⟨o', ho', hinside, -⟩ := edges_eq_ok hok
    · exact nomatch ho.symm.trans hnone
    · obtain rfl := Option.some_inj.1 (ho.symm.trans ho')
      exact absurd (hinside i hi) (Nat.not_lt.2 hlength)
  · intro hinside
    unfold edges
    split
    · exact ⟨[], rfl⟩
    · rename_i o ho
      rw [if_pos (HeapObject.fieldsInside_iff.2 fun i hi =>
        Nat.not_le.1 fun hlength => hinside i ⟨o, ho, hi, hlength⟩)]
      exact ⟨_, rfl⟩

theorem not_overhangs_of_all (hall : (h.objects.toList.all fun p => p.2.fieldsInside) = true) (a : Word)
    (i : Nat) : ¬ h.Overhangs a i := by
  rintro ⟨o, ho, hi, hlength⟩
  have hmem : (a, o) ∈ h.objects.toList := Std.TreeMap.mem_toList_iff_getElem?_eq_some.2 ho
  have hinside := HeapObject.fieldsInside_iff.1 (List.all_eq_true.1 hall _ hmem) i hi
  exact absurd hinside (Nat.not_lt.2 hlength)

/-- The reference `e` is the one that word `i` of the object `o` at `a` holds: the word is a pointer field,
    it holds the address of an object, and the field or else that object says in which region it asks for
    the object to be placed. -/
def IsField (h : Heap) (a : Word) (o : HeapObject) (i : Nat) (e : Edge) : Prop :=
  ∃ readOnly? t field, o.fields[i]? = some readOnly? ∧ h.object? (h.wordAt a i) = some t ∧
    field.toNat = a.toNat + wordBytes * i ∧
    e = ⟨some ⟨a, field⟩, h.wordAt a i, t.kind, t.size, readOnly?.getD t.readOnly⟩

/-- What a traversal is told of field `i` of an object is the reference that it holds. -/
theorem Sound.fieldEdge?_eq_some (hs : h.Sound) (ho : h.object? a = some o) {i : Nat} (hi : i < o.length)
    {readOnly? : Option Bool} {e : Edge} :
    h.fieldEdge? a o i readOnly? = some e ↔ ∃ t field, h.object? (h.wordAt a i) = some t ∧
      field.toNat = a.toNat + wordBytes * i ∧
      e = ⟨some ⟨a, field⟩, h.wordAt a i, t.kind, t.size, readOnly?.getD t.readOnly⟩ := by
  have hfield := hs.toNat_field ho hi
  rw [fieldEdge?, ← hs.wordAt_eq ho, Option.map_eq_some_iff]
  constructor
  · rintro ⟨t, ht, rfl⟩
    exact ⟨t, _, ht, hfield, rfl⟩
  · rintro ⟨t, field, ht, htoNat, rfl⟩
    obtain rfl : a.plus (wordBytes * i) = field := UInt64.toNat_inj.1 (hfield.trans htoNat.symm)
    exact ⟨t, ht, rfl⟩

theorem Sound.mem_edges_iff (hs : h.Sound) (ho : h.object? a = some o) (hok : h.edges a = .ok held)
    {e : Edge} : e ∈ held ↔ ∃ i, h.IsField a o i e := by
  obtain ⟨hnone, -⟩ | ⟨o', ho', hinside, rfl⟩ := edges_eq_ok hok
  · exact nomatch ho.symm.trans hnone
  obtain rfl := Option.some_inj.1 (ho.symm.trans ho')
  simp only [List.mem_filterMap, Prod.exists, Std.TreeMap.mem_toList_iff_getElem?_eq_some]
  constructor
  · rintro ⟨i, readOnly?, hget, hedge⟩
    have hi := hinside i (Std.TreeMap.isSome_getElem?_iff_mem.1 (by rw [hget]; rfl))
    obtain ⟨t, field, h'⟩ := (hs.fieldEdge?_eq_some ho hi).1 hedge
    exact ⟨i, readOnly?, t, field, hget, h'⟩
  · rintro ⟨i, readOnly?, t, field, hget, h'⟩
    have hi := hinside i (Std.TreeMap.isSome_getElem?_iff_mem.1 (by rw [hget]; rfl))
    exact ⟨i, readOnly?, hget, (hs.fieldEdge?_eq_some ho hi).2 ⟨t, field, h'⟩⟩

/-- The references of an object, `held`, are told by ascending field. -/
theorem Sound.edges_ascending (hs : h.Sound) (hok : h.edges a = .ok held) :
    held.Pairwise fun e e' => ∀ p ∈ e.origin?, ∀ p' ∈ e'.origin?, p.field < p'.field := by
  obtain ⟨-, rfl⟩ | ⟨o, ho, hinside, rfl⟩ := edges_eq_ok hok
  · exact .nil
  refine List.pairwise_filterMap.2 (Std.TreeMap.ordered_keys_toList.imp_of_mem ?_)
  rintro ⟨i, r⟩ ⟨i', r'⟩ hmem hmem' hlt e he e' he' p hp p' hp'
  have hlength : ∀ {j q}, (j, q) ∈ o.fields.toList → j < o.length := fun hj =>
    hinside _ (Std.TreeMap.isSome_getElem?_iff_mem.1
      (by rw [Std.TreeMap.mem_toList_iff_getElem?_eq_some.1 hj]; rfl))
  obtain ⟨t, field, -, hfield, rfl⟩ := (hs.fieldEdge?_eq_some ho (hlength hmem)).1 he
  obtain ⟨t', field', -, hfield', rfl⟩ := (hs.fieldEdge?_eq_some ho (hlength hmem')).1 he'
  cases hp
  cases hp'
  have hindex : i < i' := Nat.compare_eq_lt.1 hlt
  rw [UInt64.lt_iff_toNat_lt, hfield, hfield']
  unfold wordBytes
  omega

theorem heldCount_le (ho : h.object? a = some o) : h.toHost.heldCount a ≤ o.fields.size := by
  cases hok : h.edges a with
  | error f => simp [Host.heldCount, toHost, hok, Except.toOption]
  | ok held => rw [Host.heldCount_eq hok]; exact length_edges_le hok ho

/-- Different objects `xs` together hold no more references than the heap has pointer fields. -/
theorem sum_heldCount_le (h : Heap) {xs : List Word} (hnodup : xs.Nodup) :
    (xs.map h.toHost.heldCount).sum ≤ h.fieldCount := by
  have hmet : (xs.map h.toHost.heldCount).sum + unmetFields (fun a => decide (a ∈ xs)) h.objects.toList ≤
      unmetFields (fun _ => false) h.objects.toList := by
    induction xs with
    | nil => simp
    | cons x xs ih =>
      obtain ⟨hx, hxs⟩ := List.nodup_cons.1 hnodup
      have hmore : ∀ a, decide (a ∈ xs) = true → decide (a ∈ x :: xs) = true := fun a ha =>
        decide_eq_true (List.mem_cons_of_mem x (of_decide_eq_true ha))
      have hrest := ih hxs
      rw [List.map_cons, List.sum_cons]
      cases ho : h.object? x with
      | none =>
        have hzero : h.toHost.heldCount x = 0 := by simp [Host.heldCount, toHost, edges, ho, Except.toOption]
        have := unmetFields_mono hmore h.objects.toList
        omega
      | some o =>
        have hheld := heldCount_le ho
        have := unmetFields_meet hmore ho (decide_eq_false hx) (decide_eq_true (List.mem_cons_self ..))
        omega
  have := h.unmetFields_le fun _ => false
  omega

/-- What a traversal from `root` owes: it reports the root and, for every object that is looked
    into, each of its fields once, by ascending place, and nothing else, in depth-first preorder. -/
structure Contract (h : Heap) (root : Word) (rs : List Report) : Prop where
  nothing : h.object? root = none → rs = []
  roots : (references rs).filter (·.origin? = none) = ((h.object? root).map (rootEdge root)).toList
  fields : ∀ a ∈ entered rs, ∃ o, h.object? a = some o ∧
    ∀ e, e ∈ Edge.heldBy a (references rs) ↔ ∃ i, h.IsField a o i e
  ascending : ∀ a ∈ entered rs, (Edge.heldBy a (references rs)).Pairwise fun e e' =>
    ∀ p ∈ e.origin?, ∀ p' ∈ e'.origin?, p.field < p'.field
  others : ∀ a, a ∉ entered rs → Edge.heldBy a (references rs) = []
  preorder : h.toHost.Preorder (h.toHost.rootEdge? root).toList rs

/-- In preorder, and with no object looked into twice, a traversal from `root` does what it owes. -/
theorem Sound.contract (hs : h.Sound) {root : Word} {rs : List Report}
    (order : h.toHost.Preorder (h.toHost.rootEdge? root).toList rs) (honce : (entered rs).Nodup) :
    h.Contract root rs := by
  have horigin : ∀ a held, h.edges a = .ok held → ∀ e ∈ held, ∃ p, e.origin? = some p ∧ p.enclosing = a := by
    intro a held hok e he
    obtain ⟨i, -, horigin, -⟩ := holds_of_mem_edges hok he
    exact ⟨_, horigin, rfl⟩
  have hroot : ∀ e ∈ (h.toHost.rootEdge? root).toList, ∃ o, h.object? root = some o ∧ e = rootEdge root o := by
    intro e he
    obtain ⟨o, ho, rfl⟩ := Option.map_eq_some_iff.1 (Option.mem_toList.1 he)
    exact ⟨o, ho, rfl⟩
  have hobject : ∀ e ∈ references rs, ∃ o, h.object? e.pointee = some o := by
    refine order.forall_reported (fun a held hok e he => ?_) fun e he => ?_
    · obtain ⟨-, -, -, t, ht, -⟩ := holds_of_mem_edges hok he
      exact ⟨t, ht⟩
    · obtain ⟨o, ho, rfl⟩ := hroot e he
      exact ⟨o, ho⟩
  have houter : ∀ a, ∀ e ∈ (h.toHost.rootEdge? root).toList, e.enclosing? ≠ some a := by
    intro a e he
    obtain ⟨o, -, rfl⟩ := hroot e he
    exact nofun
  have hheld := order.heldBy_references (fun a held hok e he => by
    obtain ⟨p, hp, rfl⟩ := horigin a held hok e he
    rw [Edge.enclosing?, hp]
    rfl) honce fun e he a _ => houter a e he
  refine ⟨fun hnone => ?_, ?_, fun a ha => ?_, fun a ha => ?_, fun a ha => ?_, order⟩
  · have hempty : h.toHost.rootEdge? root = none := Option.map_eq_none_iff.2 hnone
    rw [hempty] at order
    cases order
    rfl
  · rw [order.filter_origin fun a held hok e he => by
      obtain ⟨p, hp, -⟩ := horigin a held hok e he
      simp [hp]]
    refine List.filter_eq_self.2 fun e he => ?_
    obtain ⟨o, -, rfl⟩ := hroot e he
    rfl
  · obtain ⟨e, he, rfl⟩ := exists_of_mem_entered ha
    obtain ⟨o, ho⟩ := hobject e he
    exact ⟨o, ho, fun x => hs.mem_edges_iff ho ((hheld _).1 ha)⟩
  · exact hs.edges_ascending ((hheld a).1 ha)
  · rw [(hheld a).2 ha, Edge.heldBy_eq_nil (houter a)]

/-- A traversal by `f` that looks into no object twice ends, and not for want of fuel. -/
theorem visit_ends (hinside : ∀ a i, ¬ h.Overhangs a i) {root : Word} {f : Edge → StateM σ Visit} {s : σ}
    (honce : ∀ rs pending s', h.toHost.Walks f (h.toHost.rootEdge? root).toList s rs pending s' →
      (entered rs).Nodup) :
    ∃ rs s', h.toHost.Walks f (h.toHost.rootEdge? root).toList s rs [] s' ∧
      (h.toHost.visit root fun e => ExceptT.lift (f e)).run.run s = (.ok (), s') := by
  have hedges : ∀ a, ∃ held, h.toHost.edges a = .ok held := fun a => edges_isOk_iff.2 (hinside a)
  unfold Host.visit
  cases hroot : h.toHost.rootEdge? root with
  | none => exact ⟨[], s, .stop, rfl⟩
  | some e =>
    rw [hroot] at honce
    obtain ⟨rs, pending, s', hwalks, hend, hrun⟩ := Host.walks_of_walk hedges f (h.toHost.edgeCount + 1) [e] s
    have hcount := hwalks.length_eq
    have hsum : _ ≤ h.toHost.edgeCount := h.sum_heldCount_le (honce rs pending s' hwalks)
    obtain rfl : pending = [] := by
      refine hend.elim id fun hlength => List.eq_nil_of_length_eq_zero ?_
      rw [List.length_singleton] at hcount
      omega
    exact ⟨rs, s', hwalks, hrun⟩

/-- A traversal of a heap, whatever its callback `f` answers as long as it lets no object be looked
    into twice, comes to an end where nothing is left to report, and does what it owes. -/
theorem visit_contract (made : h.Made) (hinside : ∀ a i, ¬ h.Overhangs a i) (root : Word)
    (f : Edge → StateM σ Visit) (s : σ)
    (honce : ∀ rs pending s', h.toHost.Walks f (h.toHost.rootEdge? root).toList s rs pending s' →
      (entered rs).Nodup) :
    ∃ rs s', h.toHost.Walks f (h.toHost.rootEdge? root).toList s rs [] s' ∧
      (∀ rs' pending t, h.toHost.Walks f (h.toHost.rootEdge? root).toList s rs' pending t → rs' <+: rs) ∧
      (h.toHost.visit root fun e => ExceptT.lift (f e)).run.run s = (.ok (), s') ∧ h.Contract root rs := by
  obtain ⟨rs, s', hwalks, hrun⟩ := visit_ends hinside honce
  exact ⟨rs, s', hwalks, fun _ _ _ hw => hw.prefix_of_done hwalks, hrun,
    made.sound.contract hwalks.preorder (honce rs [] s' hwalks)⟩

/-- A callback that lets the object of `e` be looked into when it is reported for the first time. -/
def firstTime (e : Edge) : StateM (List Word) Visit := fun met =>
  if e.pointee ∈ met then (.skip, met) else (.recurse, e.pointee :: met)

theorem firstTime_once {host : Host} {pending pending' : List Edge} {met met' : List Word} {rs : List Report}
    (walks : host.Walks firstTime pending met rs pending' met') :
    (entered rs).Nodup ∧ ∀ a ∈ entered rs, a ∉ met := by
  induction walks with
  | stop => exact ⟨.nil, nofun⟩
  | @skip e _ _ met _ _ _ answer more ih =>
    by_cases hmet : e.pointee ∈ met
    · obtain ⟨-, rfl⟩ := Prod.mk.inj ((if_pos hmet).symm.trans answer)
      exact ih
    · exact nomatch (if_neg hmet).symm.trans answer
  | @recurse e _ _ _ met _ _ _ answer holds more ih =>
    by_cases hmet : e.pointee ∈ met
    · exact nomatch (if_pos hmet).symm.trans answer
    · obtain ⟨-, rfl⟩ := Prod.mk.inj ((if_neg hmet).symm.trans answer)
      obtain ⟨hnodup, hnew⟩ := ih
      refine ⟨List.nodup_cons.2 ⟨fun ha => hnew _ ha (List.mem_cons_self ..), hnodup⟩, ?_⟩
      exact List.forall_mem_cons.2 ⟨hmet, fun a ha hold => hnew a ha (List.mem_cons_of_mem _ hold)⟩

/-- An object that refers to itself and to a string, which refers back to it. -/
def loopHeap : Heap :=
  (Heap.create 0x100000000000 0).afterCalls
    [.alloc .other 2 none, .alloc .internedString 1 none,
      .setPointer 0x100000000000 0 (some 0x100000000000) none,
      .setPointer 0x100000000000 1 (some 0x100000000010) (some false),
      .setPointer 0x100000000010 0 (some 0x100000000000) none]

theorem loopHeap_made : loopHeap.Made := (Heap.Made.create (by decide) (by decide)).afterCalls _

/-- Both objects are looked into once, although each leads to the other. -/
theorem visit_contract_loop :
    (loopHeap.toHost.visit 0x100000000000 fun e => ExceptT.lift (firstTime e)).run.run [] =
        (.ok (), [0x100000000010, 0x100000000000]) ∧ ∃ rs, loopHeap.Contract 0x100000000000 rs := by
  have hmet : ((loopHeap.toHost.visit 0x100000000000 fun e => ExceptT.lift (firstTime e)).run.run []).2 =
      [0x100000000010, 0x100000000000] := by decide +kernel
  obtain ⟨rs, met, -, -, hrun, hcontract⟩ :=
    visit_contract loopHeap_made (not_overhangs_of_all (by decide +kernel)) 0x100000000000 firstTime []
      fun _ _ _ hwalks => (firstTime_once hwalks).1
  rw [hrun] at hmet ⊢
  exact ⟨congrArg _ hmet, rs, hcontract⟩

end Heap

end SnapshotArchive
