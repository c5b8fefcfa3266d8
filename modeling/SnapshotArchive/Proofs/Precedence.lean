import SnapshotArchive.Proofs.Aliases
import SnapshotArchive.Proofs.Calls
import SnapshotArchive.Proofs.Finishing
import SnapshotArchive.Proofs.HeapShape

/-!
The order in which replaced objects are settled. Each is settled once its substitute is, so a substitute
that was replaced itself has to come before what it stands in for. An order in which all do is accepted,
and every order that is accepted leaves the same entries: an entry is the stand-in of that of its
substitute, whenever it was made.
-/

namespace SnapshotArchive

namespace Catalog

variable {c c' c₁ c₂ : Catalog} {host : Host} {former substitute w : Word} {rest xs ys : List Word}
  {e : SourceEntry}

/-- Pointers to the source address `w` end up somewhere. -/
def Settles (c : Catalog) (w : Word) : Prop := ∃ outcome, c.resolve w = .ok outcome

/-- The replaced object `former` may be settled now: it has no entry, and its substitute is
    settled. -/
def Admits (c : Catalog) (host : Host) (former : Word) : Prop :=
  c.get? former = none ∧ ∃ substitute, host.substitute? former = some substitute ∧ c.Settles substitute

/-- Replaced objects may be settled in the order of `xs`: they are different and have no entries,
    and the substitute of each was settled before or precedes it. -/
structure Orderly (c : Catalog) (host : Host) (xs : List Word) : Prop where
  nodup : xs.Nodup
  new : ∀ former ∈ xs, c.get? former = none
  preceded : ∀ done former rest, xs = done ++ former :: rest →
    ∃ substitute, host.substitute? former = some substitute ∧ (c.Settles substitute ∨ substitute ∈ done)

/-- The replaced objects of `xs` have the entries of stand-ins in `c'`; nothing else changed. -/
structure Settled (c : Catalog) (host : Host) (xs : List Word) (c' : Catalog) : Prop where
  others : ∀ w, w ∉ xs → c'.get? w = c.get? w
  standIns : ∀ former ∈ xs, ∃ substitute e, host.substitute? former = some substitute ∧
    c'.get? substitute = some e ∧ c'.get? former = some (e.standIn former)

theorem settles_iff : c.Settles w ↔ ∃ e, c.get? w = some e ∧ e.resolution?.isSome = true := by
  unfold Settles
  simp only [resolve_eq_ok, Option.isSome_iff_exists]
  exact ⟨fun ⟨outcome, e, he, hr⟩ => ⟨e, he, outcome, hr⟩, fun ⟨e, he, outcome, hr⟩ => ⟨outcome, e, he, hr⟩⟩

theorem admits_iff : c.Admits host former ↔
    ∃ substitute c', host.substitute? former = some substitute ∧ c.addAlias former substitute = .ok c' := by
  unfold Admits
  simp only [settles_iff, addAlias_eq_ok_iff]
  constructor
  · rintro ⟨hnew, substitute, hsub, e, he, hsettled⟩
    exact ⟨substitute, _, hsub, e, he, hsettled, hnew, rfl⟩
  · rintro ⟨substitute, _, hsub, e, he, hsettled, hnew, rfl⟩
    exact ⟨hnew, substitute, hsub, e, he, hsettled⟩

/-- The first one, `former`, of an orderly list may be settled now. -/
theorem Orderly.admits (h : c.Orderly host (former :: rest)) : c.Admits host former := by
  obtain ⟨substitute, hsub, hsettles | hmem⟩ := h.preceded [] former rest rfl
  · exact ⟨h.new former (List.mem_cons_self ..), substitute, hsub, hsettles⟩
  · cases hmem

section Step

variable (hput : c' = c.put (e.standIn former)) (hnew : c.get? former = none)
  (hsettled : e.resolution?.isSome = true)

include hput in
/-- One more stand-in, at `former`, has an entry. -/
theorem get?_standIn (w : Word) :
    c'.get? w = if former = w then some (e.standIn former) else c.get? w := by
  rw [hput, get?_put]
  rfl

include hput hsettled in
/-- One more stand-in, at `former`, is settled. -/
theorem settles_standIn (w : Word) : c'.Settles w ↔ c.Settles w ∨ w = former := by
  simp only [settles_iff, get?_standIn hput]
  by_cases hw : former = w
  · subst hw
    simp [SourceEntry.isSome_resolution?_standIn hsettled former]
  · simp [hw, Ne.symm hw]

include hput hnew hsettled in
/-- A list is orderly if its first element `former` may be settled and the `rest` is orderly
    afterwards. -/
theorem orderly_cons (hsub : host.substitute? former = some substitute) (hsubstitute : c.Settles substitute) :
    c.Orderly host (former :: rest) ↔ c'.Orderly host rest := by
  constructor
  · rintro ⟨hnodup, hunentered, hpreceded⟩
    obtain ⟨hnotin, hrest⟩ := List.nodup_cons.1 hnodup
    refine ⟨hrest, fun x hx => ?_, fun done x post heq => ?_⟩
    · rw [get?_standIn hput, if_neg fun heq : former = x => hnotin (heq ▸ hx)]
      exact hunentered x (List.mem_cons_of_mem _ hx)
    · obtain ⟨y, hy, hor⟩ := hpreceded (former :: done) x post (by rw [heq]; rfl)
      refine ⟨y, hy, ?_⟩
      rw [settles_standIn hput hsettled, or_assoc]
      exact hor.imp_right List.mem_cons.1
  · rintro ⟨hnodup, hunentered, hpreceded⟩
    have hne : ∀ x ∈ rest, former ≠ x ∧ c.get? x = none := fun x hx => by
      have hx := hunentered x hx
      rw [get?_standIn hput] at hx
      split at hx
      · cases hx
      · rename_i hne
        exact ⟨hne, hx⟩
    refine ⟨List.nodup_cons.2 ⟨fun hmem => (hne former hmem).1 rfl, hnodup⟩,
      List.forall_mem_cons.2 ⟨hnew, fun x hx => (hne x hx).2⟩, fun done x post heq => ?_⟩
    cases done with
    | nil =>
      obtain ⟨rfl, rfl⟩ := List.cons.inj heq
      exact ⟨substitute, hsub, .inl hsubstitute⟩
    | cons y done =>
      obtain ⟨rfl, rfl⟩ := List.cons.inj heq
      obtain ⟨z, hz, hor⟩ := hpreceded done x post rfl
      rw [settles_standIn hput hsettled, or_assoc] at hor
      exact ⟨z, hz, hor.imp_right List.mem_cons.2⟩

include hput hnew in
theorem Settled.cons (hsub : host.substitute? former = some substitute) (he : c.get? substitute = some e)
    (hrest : c'.Orderly host rest) (h : c'.Settled host rest c₁) :
    c.Settled host (former :: rest) c₁ := by
  have hne : former ≠ substitute := by
    rintro rfl
    exact nomatch hnew.symm.trans he
  have hkept : ∀ w x, c'.get? w = some x → c₁.get? w = some x := fun w x hx =>
    (h.others w fun hmem => nomatch (hrest.new w hmem).symm.trans hx).trans hx
  refine ⟨fun w hw => ?_, List.forall_mem_cons.2 ⟨⟨substitute, e, hsub, ?_, ?_⟩, h.standIns⟩⟩
  · obtain ⟨hfirst, hothers⟩ := not_or.1 (List.mem_cons.not.1 hw)
    rw [h.others w hothers, get?_standIn hput, if_neg (Ne.symm hfirst)]
  · exact hkept _ _ (by rw [get?_standIn hput, if_neg hne, he])
  · exact hkept _ _ (by rw [get?_standIn hput, if_pos rfl])

end Step

/-- However the objects of an orderly `xs` are settled, they have the same entries: on the entries
    of substitutes one has to agree first, and the list says in which order. -/
theorem Settled.unique (horderly : c.Orderly host xs) (h₁ : c.Settled host xs c₁)
    (hperm : xs.Perm ys) (h₂ : c.Settled host ys c₂) (w : Word) : c₁.get? w = c₂.get? w := by
  have hothers : ∀ w, w ∉ xs → c₁.get? w = c₂.get? w := fun w hw =>
    (h₁.others w hw).trans (h₂.others w (hperm.mem_iff.not.1 hw)).symm
  have hsplit : ∀ (n : Nat) (done : List Word) (former : Word) (rest : List Word), done.length = n →
      xs = done ++ former :: rest → c₁.get? former = c₂.get? former := by
    intro n
    -- on how many objects come before: a substitute that was replaced itself is among them
    induction n using Nat.strong_induction_on with
    | _ n ih =>
      rintro done former rest rfl heq
      have hmem : former ∈ xs := by
        rw [heq]
        exact List.mem_append_right _ (List.mem_cons_self ..)
      obtain ⟨substitute, e, hsub, he, hentry⟩ := h₁.standIns former hmem
      obtain ⟨_, e', hsub', he', hentry'⟩ := h₂.standIns former (hperm.mem_iff.1 hmem)
      obtain rfl := Option.some_inj.1 (hsub.symm.trans hsub')
      have hsame : c₁.get? substitute = c₂.get? substitute := by
        obtain ⟨_, hsub', hsettles | hdone⟩ := horderly.preceded done former rest heq
        · obtain rfl := Option.some_inj.1 (hsub.symm.trans hsub')
          obtain ⟨x, hx, -⟩ := settles_iff.1 hsettles
          exact hothers _ fun hmem => nomatch (horderly.new _ hmem).symm.trans hx
        · obtain rfl := Option.some_inj.1 (hsub.symm.trans hsub')
          obtain ⟨before, after, rfl⟩ := List.append_of_mem hdone
          refine ih before.length ?_ before substitute (after ++ former :: rest) rfl ?_
          · rw [List.length_append, List.length_cons]
            omega
          · rw [heq, List.append_assoc, List.cons_append]
      obtain rfl := Option.some_inj.1 (he.symm.trans (hsame.trans he'))
      rw [hentry, hentry']
  by_cases hw : w ∈ xs
  · obtain ⟨done, rest, heq⟩ := List.append_of_mem hw
    exact hsplit _ done w rest rfl heq
  · exact hothers w hw

/-- A permutation `ys` of an orderly list is orderly if the substitutes that were not settled before
    come first. -/
theorem Orderly.perm_iff (h : c.Orderly host xs) (hperm : xs.Perm ys) : c.Orderly host ys ↔
    ∀ done former rest substitute, ys = done ++ former :: rest →
      host.substitute? former = some substitute → c.Settles substitute ∨ substitute ∈ done := by
  constructor
  · intro hys done former rest substitute heq hsub
    obtain ⟨_, hsub', hor⟩ := hys.preceded done former rest heq
    obtain rfl := Option.some_inj.1 (hsub.symm.trans hsub')
    exact hor
  · intro hfirst
    refine ⟨hperm.nodup_iff.1 h.nodup, fun x hx => h.new x (hperm.mem_iff.2 hx), fun done x rest heq => ?_⟩
    have hmem : x ∈ ys := by
      rw [heq]
      exact List.mem_append_right _ (List.mem_cons_self ..)
    obtain ⟨before, after, hxs⟩ := List.append_of_mem (hperm.mem_iff.2 hmem)
    obtain ⟨substitute, hsub, -⟩ := h.preceded before x after hxs
    exact ⟨substitute, hsub, hfirst done x rest substitute heq hsub⟩

/-- If no object of `xs` stands in for another one, every order `ys` will do. -/
theorem Orderly.perm (h : c.Orderly host xs) (hperm : xs.Perm ys)
    (hplain : ∀ former ∈ xs, ∀ substitute, host.substitute? former = some substitute → substitute ∉ xs) :
    c.Orderly host ys := by
  refine (h.perm_iff hperm).2 fun done x rest substitute heq hsub => .inl ?_
  have hmem : x ∈ xs := hperm.mem_iff.2 (heq ▸ List.mem_append_right _ (List.mem_cons_self ..))
  obtain ⟨before, after, hxs⟩ := List.append_of_mem hmem
  obtain ⟨_, hsub', hsettles | hbefore⟩ := h.preceded before x after hxs
  · rwa [Option.some_inj.1 (hsub.symm.trans hsub')]
  · rw [Option.some_inj.1 (hsub'.symm.trans hsub)] at hbefore
    exact absurd (hxs ▸ List.mem_append_left _ hbefore) (hplain x hmem substitute hsub)

end Catalog

namespace SessionM

open Session

variable {s : Session} {former : Word}

/-- A replaced object `former` is settled unless it may not be. -/
theorem triple_resolveReplaced_admitted (s : Session) (former : Word) :
    Triple (· = s) (resolveReplaced former) (fun _ s' => ∃ substitute,
      s.host.substitute? former = some substitute ∧ AliasStep former substitute s s')
      (fun _ _ => ¬s.catalog.Admits s.host former) := by
  have hrefused : Triple (· = s) (resolveReplaced former) (fun _ _ => True)
      (fun _ _ => ¬s.catalog.Admits s.host former) := by
    rintro r rfl
    unfold resolveReplaced
    simp only [wp_bind, wp_session, Catalog.admits_iff]
    cases hsub : r.session.host.substitute? former with
    | none => exact fun ⟨_, _, hsome, _⟩ => nomatch hsome
    | some substitute =>
      dsimp only
      rw [wp_bind, wp_ofViolation]
      cases hadd : r.session.catalog.addAlias former substitute with
      | ok c => trivial
      | error v =>
        rintro ⟨_, c, hsome, hok⟩
        cases hsome
        exact nomatch hadd.symm.trans hok
  exact ((triple_resolveReplaced s former).and hrefused).conseq (fun _ h => ⟨h, h⟩) (fun _ _ h => h.1)
    fun _ _ h => h.2

/-- Replaced objects are settled in the order of `xs` if and only if it is orderly. -/
theorem triple_resolveReplaced_each : ∀ (xs : List Word) (s : Session),
    Triple (· = s) (xs.forM resolveReplaced) (fun _ s' => s.catalog.Orderly s.host xs ∧
      ∃ c, s' = { s with catalog := c } ∧ s.catalog.Settled s.host xs c)
      (fun _ _ => ¬s.catalog.Orderly s.host xs)
  | [], s => by
    rintro r rfl
    exact ⟨⟨List.nodup_nil, nofun, fun done _ _ heq => by cases done <;> cases heq⟩, r.session.catalog, rfl,
      fun _ _ => rfl, nofun⟩
  | former :: rest, s => by
    change Triple _ (resolveReplaced former >>= fun _ => rest.forM resolveReplaced) _ _
    refine ((triple_resolveReplaced_admitted s former).conseq (fun _ h => h) (fun _ _ h => h)
      fun _ _ hrefused horderly => hrefused horderly.admits).bind fun _ => ?_
    rintro r ⟨substitute, hsub, e, outcome, he, hr, hnew, hs⟩
    have hsettled : e.resolution?.isSome = true := by rw [hr]; rfl
    have hcons : s.catalog.Orderly s.host (former :: rest) ↔ _ :=
      Catalog.orderly_cons rfl hnew hsettled hsub (Catalog.settles_iff.2 ⟨e, he, hsettled⟩)
    refine (triple_resolveReplaced_each rest r.session).use rfl ?_ ?_
    · rintro _ r' ⟨horderly, c, hr', hstands⟩
      rw [hs] at horderly hr' hstands
      exact ⟨hcons.2 horderly, c, hr', hstands.cons rfl hnew hsub he horderly⟩
    · rintro _ _ hrefused
      rw [hs] at hrefused
      exact fun horderly => hrefused (hcons.1 horderly)

end SessionM

open SessionM

namespace Session

variable {s : Session} {xs ys : List Word}

/-- The replaced objects `xs` are settled one after the other. -/
def Resolves (s : Session) (xs : List Word) : Prop := ((xs.forM resolveReplaced).perform s).1 = .ok ()

theorem resolves_iff : s.Resolves xs ↔ s.catalog.Orderly s.host xs := by
  unfold Resolves
  obtain ⟨⟨⟩, hok, horderly, -⟩ | ⟨f, herror, hrefused⟩ := (triple_resolveReplaced_each xs s).perform rfl
  · exact iff_of_true hok horderly
  · exact iff_of_false (fun hok => nomatch hok.symm.trans herror) hrefused

theorem Resolves.settled (h : s.Resolves xs) : s.catalog.Settled s.host xs
    ((xs.forM resolveReplaced).perform s).2.session.catalog := by
  obtain ⟨-, c, hs, hstands⟩ := (triple_resolveReplaced_each xs s).on_eq_ok (r := ⟨s, #[]⟩) rfl h
  change ((xs.forM resolveReplaced).perform s).2.session = _ at hs
  rw [hs]
  exact hstands

/-- Replaced objects are settled in the order of `xs` if and only if they are different and new, and
    the substitute of each was settled before or precedes it. So of two orders `xs` and `ys` of the
    same objects of which one is accepted the other one is if and only if substitutes precede in it,
    too; always, if no substitute is among the objects. And if both are accepted, every address ends
    up in the same place. -/
theorem resolveReplaced_permuted (s : Session) {xs ys : List Word} (hperm : xs.Perm ys) :
    (s.Resolves xs ↔ s.catalog.Orderly s.host xs) ∧
    (s.Resolves xs → (s.Resolves ys ↔ ∀ done former rest substitute, ys = done ++ former :: rest →
      s.host.substitute? former = some substitute → s.catalog.Settles substitute ∨ substitute ∈ done)) ∧
    ((∀ former ∈ xs, ∀ substitute, s.host.substitute? former = some substitute → substitute ∉ xs) →
      (s.Resolves xs ↔ s.Resolves ys)) ∧
    (s.Resolves xs → s.Resolves ys → ∀ w,
      ((xs.forM resolveReplaced).perform s).2.session.catalog.resolve w =
        ((ys.forM resolveReplaced).perform s).2.session.catalog.resolve w) := by
  refine ⟨resolves_iff, fun hxs => ?_, fun hplain => ?_, fun hxs hys w => ?_⟩
  · rw [resolves_iff]
    exact (resolves_iff.1 hxs).perm_iff hperm
  · rw [resolves_iff, resolves_iff]
    refine ⟨fun h => h.perm hperm hplain, fun h => h.perm hperm.symm fun former hmem substitute hsub => ?_⟩
    exact hperm.mem_iff.not.1 (hplain former (hperm.mem_iff.2 hmem) substitute hsub)
  · unfold Catalog.resolve
    rw [hxs.settled.unique (resolves_iff.1 hxs) hperm hys.settled w]

/-- An object that was replaced by one that was replaced by a third. -/
def chainHeap : Heap :=
  (Heap.create 0x100000000000 0).afterCalls
    [.alloc .other 1 none, .alloc .other 1 none, .alloc .other 1 none,
      .substitute 0x100000000000 0x100000000008, .substitute 0x100000000008 0x100000000010]

/-- A session over them, with the third one copied. -/
def chainCopied : Session :=
  (fresh chainHeap.toHost ⟨⟨0x20000⟩, 0x1000, room_fits⟩ ⟨0x8000, 8, 0, false⟩ none).afterCalls
    [.gather [0x100000000010, 0x100000000000, 0x100000000008], .reserveBuffer ⟨0, 0, 0⟩,
      .copyMutable noTables]

/-- In the order in which they were found the two replaced objects are not settled, and in the other order
    they are. -/
theorem resolveReplaced_order_matters :
    chainCopied.stage = .mutableCopied ∧
    chainCopied.replaced.toList = [0x100000000000, 0x100000000008] ∧
    chainCopied.catalog.entries.toList.all (fun p => p.2.output?.isSome) = true ∧
    chainHeap.substitutes.toList =
      [(0x100000000000, 0x100000000008), (0x100000000008, 0x100000000010)] ∧
    ([0x100000000000, 0x100000000008] : List Word).Perm [0x100000000008, 0x100000000000] ∧
    ¬(chainCopied.Resolves [0x100000000008, 0x100000000000] ↔
      chainCopied.Resolves [0x100000000000, 0x100000000008]) := by
  have hrefused : ¬chainCopied.Resolves [0x100000000000, 0x100000000008] := by
    unfold Resolves
    decide +kernel
  have hresolves : chainCopied.Resolves [0x100000000008, 0x100000000000] := eq_ok_of_toOption (by decide +kernel)
  exact ⟨by decide +kernel, by decide +kernel, by decide +kernel, by decide +kernel, .swap .., fun h =>
    hrefused (h.1 hresolves)⟩

/-- The substitute that was replaced itself has to precede. -/
theorem resolveReplaced_permuted_chain :
    ([0x100000000008, 0x100000000000] : List Word).Perm [0x100000000000, 0x100000000008] ∧
    chainCopied.Resolves [0x100000000008, 0x100000000000] ∧
    chainCopied.catalog.Orderly chainCopied.host [0x100000000008, 0x100000000000] ∧
    ¬chainCopied.Resolves [0x100000000000, 0x100000000008] := by
  have hperm : ([0x100000000008, 0x100000000000] : List Word).Perm [0x100000000000, 0x100000000008] :=
    .swap ..
  have hresolves : chainCopied.Resolves [0x100000000008, 0x100000000000] := eq_ok_of_toOption (by decide +kernel)
  obtain ⟨horderly, hother, -⟩ := resolveReplaced_permuted chainCopied hperm
  refine ⟨hperm, hresolves, horderly.1 hresolves, fun hswapped => ?_⟩
  have hfirst := (hother hresolves).1 hswapped [] 0x100000000000 [0x100000000008] 0x100000000008 rfl
    (by decide +kernel)
  rcases hfirst with ⟨outcome, hsettles⟩ | hmem
  · have hunsettled : (chainCopied.catalog.resolve 0x100000000008).toOption = none := by decide +kernel
    rw [hsettles] at hunsettled
    cases hunsettled
  · cases hmem

end Session

end SnapshotArchive
