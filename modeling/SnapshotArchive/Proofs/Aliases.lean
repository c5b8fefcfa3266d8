import SnapshotArchive.Proofs.Books
import SnapshotArchive.Proofs.Copies

/-!
Entries that stand in for replaced objects. An alias is accepted exactly if its substitute is settled and
its own address is free. From then on it ends up where its substitute does, whatever is done to the
catalog, unless the substitute lies in the dependency: the alias then leads to its own former address.
-/

namespace SnapshotArchive

/-- What may be done to a catalog. -/
inductive CatalogCall where
  | add (e : SourceEntry)
  | place (source : Word) (output : Addr .buffer)
  | addAlias (former substitute : Word)

/-- The catalog `c` after a call, whether it was accepted or refused. -/
def CatalogCall.after (c : Catalog) : CatalogCall → Catalog
  | add e => (c.add e).1
  | place source output => (c.place source output).2
  | addAlias former substitute => (c.addAlias former substitute).toOption.getD c

/-- An entry `e` whose copy is still to be made is not settled: `e.resolution?` is none. -/
theorem SourceEntry.resolution?_eq_none {e : SourceEntry} (hcopied : e.isCopied = true)
    (hout : e.output? = none) : e.resolution? = none := by
  have hcopy : e.disposition = .copy := by simpa [isCopied] using hcopied
  simp [resolution?, hcopy, hout]

namespace Catalog

/-- The catalogs that calls lead to from the empty one. -/
inductive Made : Catalog → Prop where
  | empty : Made .empty
  | call {c : Catalog} (made : Made c) (k : CatalogCall) : Made (k.after c)

/-- The catalog after some calls. -/
def afterCalls (c : Catalog) (calls : List CatalogCall) : Catalog :=
  calls.foldl (fun c k => k.after c) c

/-- Every entry of `c` stands at its own address `e.source`. -/
def Keyed (c : Catalog) : Prop := ∀ w e, c.get? w = some e → e.source = w

variable {c c' : Catalog} {e : SourceEntry} {former substitute w : Word}

theorem Keyed.put (h : c.Keyed) (e : SourceEntry) : (c.put e).Keyed := by
  intro w x hx
  rw [get?_put] at hx
  split at hx
  · rename_i hw
    cases hx
    exact hw
  · exact h w x hx

theorem keyed_add (h : c.Keyed) (e : SourceEntry) : (c.add e).1.Keyed := by
  unfold add
  split
  · exact h
  · exact h.put e

/-- Placing a copy at `output` changes only the entry of `source`, and that one only if it is still
    to be copied. -/
theorem get?_place (h : c.Keyed) (source : Word) (output : Addr .buffer) (w : Word) :
    (c.place source output).2.get? w = c.get? w ∨
      ∃ e, c.get? w = some e ∧ e.isCopied = true ∧ e.output? = none ∧
        (c.place source output).2.get? w = some { e with output? := some output } := by
  rcases hp : c.place source output with ⟨v | ⟨⟩, c'⟩
  · exact .inl (SessionM.place_error hp w)
  · obtain ⟨e, he, hcopied, hout, hget⟩ := SessionM.place_eq_ok hp
    by_cases hw : e.source = w
    · obtain rfl : source = w := (h source e he).symm.trans hw
      exact .inr ⟨e, he, hcopied, hout, (hget source).trans (if_pos hw)⟩
    · exact .inl ((hget w).trans (if_neg hw))

theorem keyed_place (h : c.Keyed) (source : Word) (output : Addr .buffer) :
    (c.place source output).2.Keyed := by
  intro w x hx
  rcases get?_place h source output w with hsame | ⟨e, he, -, -, hnew⟩
  · exact h w x (hsame ▸ hx)
  · obtain rfl := Option.some_inj.1 (hnew.symm.trans hx)
    exact h w e he

/-- An alias is accepted exactly if `substitute` is settled and `former` is free. -/
theorem addAlias_eq_ok_iff :
    c.addAlias former substitute = .ok c' ↔
      ∃ e, c.get? substitute = some e ∧ e.resolution?.isSome = true ∧ c.get? former = none ∧
        c' = c.put (e.standIn former) := by
  rcases c.addAlias_cases former substitute with
    ⟨hunsettled, hadd⟩ | ⟨e, outcome, he, hout, ⟨⟨x, hx⟩, hadd⟩ | ⟨hnew, hadd⟩⟩ <;> rw [hadd]
  · refine iff_of_false nofun ?_
    rintro ⟨e, he, hsettled, -⟩
    rw [hunsettled e he] at hsettled
    cases hsettled
  · refine iff_of_false nofun ?_
    rintro ⟨e, -, -, hnew, -⟩
    rw [hx] at hnew
    cases hnew
  · constructor
    · rintro ⟨⟩
      exact ⟨e, he, by rw [hout]; rfl, hnew, rfl⟩
    · rintro ⟨x, hx, -, -, rfl⟩
      obtain rfl := Option.some_inj.1 (he.symm.trans hx)
      rfl

/-- A call of `addAlias` adds a stand-in at `former`, or changes nothing. -/
theorem after_addAlias (c : Catalog) (former substitute : Word) :
    (CatalogCall.addAlias former substitute).after c = c ∨
      ∃ e : SourceEntry, c.get? former = none ∧
        (CatalogCall.addAlias former substitute).after c = c.put (e.standIn former) := by
  rcases ha : c.addAlias former substitute with v | c'
  · exact .inl (by simp [CatalogCall.after, ha, Except.toOption])
  · obtain ⟨e, -, -, hnew, rfl⟩ := addAlias_eq_ok_iff.1 ha
    exact .inr ⟨e, hnew, by simp [CatalogCall.after, ha, Except.toOption]⟩

theorem Keyed.after (h : c.Keyed) : ∀ k : CatalogCall, (k.after c).Keyed
  | .add e => keyed_add h e
  | .place source output => keyed_place h source output
  | .addAlias former substitute => by
    rcases after_addAlias c former substitute with hsame | ⟨e, -, hput⟩
    · rw [hsame]
      exact h
    · rw [hput]
      exact h.put _

theorem Made.keyed (h : c.Made) : c.Keyed := by
  induction h with
  | empty => intro w e he; rw [get?_empty] at he; cases he
  | call _ k ih => exact ih.after k

/-- No call `k` changes a settled entry `e`. -/
theorem get?_after (h : c.Keyed) (he : c.get? w = some e) (hsettled : e.resolution?.isSome = true) :
    ∀ k : CatalogCall, (k.after c).get? w = some e
  | .add x => by
    refine (get?_add ..).trans ((if_neg ?_).trans he)
    rintro ⟨-, hnone⟩
    rw [he] at hnone
    cases hnone
  | .place source output => by
    rcases get?_place h source output w with hsame | ⟨x, hx, hcopied, hout, -⟩
    · exact hsame.trans he
    · obtain rfl := Option.some_inj.1 (he.symm.trans hx)
      rw [SourceEntry.resolution?_eq_none hcopied hout] at hsettled
      cases hsettled
  | .addAlias former substitute => by
    rcases after_addAlias c former substitute with hsame | ⟨x, hnew, hput⟩
    · rw [hsame, he]
    · rw [hput, get?_put, if_neg, he]
      rintro rfl
      exact absurd (hnew.symm.trans he) (by simp)

/-- Whatever `calls` follow, a settled entry `e` stays as it is. -/
theorem get?_afterCalls (h : c.Keyed) (he : c.get? w = some e)
    (hsettled : e.resolution?.isSome = true) (calls : List CatalogCall) :
    (c.afterCalls calls).get? w = some e := by
  induction calls generalizing c with
  | nil => exact he
  | cons k rest ih => exact ih (h.after k) (get?_after h he hsettled k)

theorem resolve_eq_ok {outcome : Resolution} :
    c.resolve w = .ok outcome ↔ ∃ e, c.get? w = some e ∧ e.resolution? = some outcome := by
  unfold resolve
  rcases c.get? w with - | e
  · simp
  · rcases hr : e.resolution? <;> simp [hr]

theorem outputOf_eq_ok (he : c.get? w = some e) (a : Addr .buffer) :
    c.outputOf w = .ok a ↔ e.output? = some a := by
  unfold outputOf
  rw [he]
  rcases h : e.output? with - | b <;> simp [h]

end Catalog

/-- An `outcome` other than null is the copy of `e`, or the object itself if it lies in the
    dependency. -/
theorem SourceEntry.copy_or_existing {e : SourceEntry} {outcome : Resolution}
    (h : e.resolution? = some outcome) (hne : outcome.word ≠ 0) :
    (∃ target, e.output? = some target ∧ outcome = .output target) ∨
      e.disposition = .aliasToExisting ∧ outcome = .existing ⟨e.source⟩ := by
  unfold resolution? at h
  cases hfate : e.disposition with
  | copy =>
    rw [hfate] at h
    obtain ⟨target, htarget, rfl⟩ := Option.map_eq_some_iff.1 h
    exact .inl ⟨target, htarget, rfl⟩
  | aliasToExisting =>
    rw [hfate] at h
    exact .inr ⟨rfl, (Option.some_inj.1 h).symm⟩
  | nullOut =>
    rw [hfate] at h
    cases h
    exact absurd rfl hne

/-- A stand-in of `e` at `former` is settled as `e` is, but for an object of the dependency, where
    it keeps its own address. -/
theorem SourceEntry.resolution?_standIn (e : SourceEntry) (former : Word) :
    (e.standIn former).resolution? =
      if e.disposition = .aliasToExisting then some (.existing ⟨former⟩) else e.resolution? := by
  rcases hd : e.disposition <;> simp [resolution?, standIn, hd]

/-- What stands in for `e` ends up somewhere if `e` does. -/
theorem SourceEntry.isSome_resolution?_standIn {e : SourceEntry} (h : e.resolution?.isSome = true)
    (former : Word) : (e.standIn former).resolution?.isSome = true := by
  rw [resolution?_standIn]
  split
  · rfl
  · exact h

namespace Catalog

variable {c c' : Catalog} {former substitute : Word}

/-- The stand-in of `e` at `former` and the entry of `substitute` stay as they are, whatever `calls`
    follow. -/
theorem resolve_afterCalls (h : c.Keyed) {e : SourceEntry} (he : c.get? substitute = some e)
    (hsettled : e.resolution?.isSome = true) (hnew : c.get? former = none)
    (calls : List CatalogCall) :
    ((c.put (e.standIn former)).afterCalls calls).get? substitute = some e ∧
      ((c.put (e.standIn former)).afterCalls calls).get? former = some (e.standIn former) := by
  have hne : former ≠ substitute := by
    rintro rfl
    exact absurd (hnew.symm.trans he) (by simp)
  have hstand := SourceEntry.isSome_resolution?_standIn hsettled former
  constructor
  · exact get?_afterCalls (h.put _) ((get?_put ..).trans ((if_neg hne).trans he)) hsettled calls
  · exact get?_afterCalls (h.put _) ((get?_put ..).trans (if_pos rfl)) hstand calls

/-- An alias is accepted if and only if `substitute` is settled and `former` is free; nothing else
    then changes. Whatever calls follow, the alias has the copy that `substitute` has, and ends up
    where it does, unless that one lies in the dependency: the alias of such an object leads to its
    own address. -/
theorem addAlias_exact (made : c.Made) (former substitute : Word) :
    ((∃ c', c.addAlias former substitute = .ok c') ↔
      (∃ outcome, c.resolve substitute = .ok outcome) ∧ c.get? former = none) ∧
    ∀ c', c.addAlias former substitute = .ok c' →
      (∀ w, w ≠ former → c'.resolve w = c.resolve w ∧ c'.outputOf w = c.outputOf w) ∧
      (∀ output, c'.sourceOf? output = c.sourceOf? output) ∧
      ∃ e, c.get? substitute = some e ∧ ∀ calls : List CatalogCall,
        (c'.afterCalls calls).resolve substitute = c.resolve substitute ∧
        (c'.afterCalls calls).resolve former =
          (if e.disposition = .aliasToExisting then .ok (.existing ⟨former⟩)
            else c.resolve substitute) ∧
        ∀ a, (c'.afterCalls calls).outputOf former = .ok a ↔
          (c'.afterCalls calls).outputOf substitute = .ok a := by
  refine ⟨⟨?_, ?_⟩, ?_⟩
  · rintro ⟨c', hc'⟩
    obtain ⟨e, he, hsettled, hnew, -⟩ := addAlias_eq_ok_iff.1 hc'
    obtain ⟨outcome, hr⟩ := Option.isSome_iff_exists.1 hsettled
    exact ⟨⟨outcome, resolve_eq_ok.2 ⟨e, he, hr⟩⟩, hnew⟩
  · rintro ⟨⟨outcome, hr⟩, hnew⟩
    obtain ⟨e, he, hr⟩ := resolve_eq_ok.1 hr
    exact ⟨_, addAlias_eq_ok_iff.2 ⟨e, he, by rw [hr]; rfl, hnew, rfl⟩⟩
  · intro c' hc'
    obtain ⟨e, he, hsettled, hnew, rfl⟩ := addAlias_eq_ok_iff.1 hc'
    obtain ⟨outcome, hr⟩ := Option.isSome_iff_exists.1 hsettled
    have hresolve : c.resolve substitute = .ok outcome := resolve_eq_ok.2 ⟨e, he, hr⟩
    refine ⟨fun w hw => ?_, fun _ => rfl, e, he, fun calls => ?_⟩
    · have hget : (c.put (e.standIn former)).get? w = c.get? w :=
        (get?_put ..).trans (if_neg (Ne.symm hw))
      exact ⟨by rw [resolve, hget, resolve], by rw [outputOf, hget, outputOf]⟩
    · obtain ⟨hsub, halias⟩ := resolve_afterCalls made.keyed he hsettled hnew calls
      refine ⟨(resolve_eq_ok.2 ⟨e, hsub, hr⟩).trans hresolve.symm, ?_, fun a => ?_⟩
      · have hstand := SourceEntry.resolution?_standIn e former
        split at hstand
        · rename_i hd
          rw [if_pos hd, resolve_eq_ok.2 ⟨_, halias, hstand⟩]
        · rename_i hd
          rw [if_neg hd, hresolve, resolve_eq_ok.2 ⟨_, halias, hstand.trans hr⟩]
      · rw [outputOf_eq_ok halias, outputOf_eq_ok hsub]
        rfl

/-- A copied object, a transient one and one of the dependency, each with its account. -/
def threeFates : Catalog :=
  Catalog.empty.afterCalls
    [.add (.found 0x2000 .copy .other 16 false), .place 0x2000 ⟨0x7000⟩,
      .add (.found 0x3000 .nullOut .profileData 8 false),
      .add (.found 0x4000 .aliasToExisting .other 8 false)]

theorem Made.afterCalls (h : c.Made) (calls : List CatalogCall) : (c.afterCalls calls).Made := by
  induction calls generalizing c with
  | nil => exact h
  | cons k rest ih => exact ih (h.call k)

theorem threeFates_made : threeFates.Made := Made.empty.afterCalls _

/-- An alias at `0x1000` of a copied object, and then an alias at `0x800` of that alias. -/
theorem addAlias_exact_chain : ∃ c', threeFates.addAlias 0x1000 0x2000 = .ok c' ∧
    ((c'.afterCalls [.addAlias 0x800 0x1000, .place 0x1000 ⟨0x9000⟩]).resolve 0x1000 =
      .ok (.output ⟨0x7000⟩)) ∧ ∀ output, c'.sourceOf? output = threeFates.sourceOf? output := by
  obtain ⟨hok, hthen⟩ := addAlias_exact threeFates_made 0x1000 0x2000
  obtain ⟨c', hc'⟩ := hok.2 ⟨⟨.output ⟨0x7000⟩, by decide +kernel⟩, by decide +kernel⟩
  obtain ⟨-, hsources, e, he, hcalls⟩ := hthen c' hc'
  have hcopied : e.disposition ≠ .aliasToExisting := by
    obtain rfl := Option.some_inj.1 (he.symm.trans
      (by decide +kernel : threeFates.get? 0x2000 =
        some { SourceEntry.found 0x2000 .copy .other 16 false with output? := some ⟨0x7000⟩ }))
    decide
  refine ⟨c', hc', ?_, hsources⟩
  rw [(hcalls _).2.1, if_neg hcopied]
  decide +kernel

/-- An alias of an object of the dependency leads to its own address, which is not in the dependency. -/
example : (((CatalogCall.addAlias 0x1000 0x4000).after threeFates).resolve 0x1000) =
    .ok (.existing ⟨0x1000⟩) := by decide +kernel

end Catalog

end SnapshotArchive
