import SnapshotArchive.Proofs.Assembling
import SnapshotArchive.Proofs.CopyingTwice

/-!
Building two archives from heaps that correspond. Reserving gives each session a buffer of the same length
and settles where its archive will be mapped; then both are filled alike.
-/

namespace SnapshotArchive

variable {p : Pairing} {hot : Nat → Prop} {sure : Prop}

/-- One side reserves `length` bytes if the other does, where that is `sure`. -/
theorem Buffer.agree_reserve {r r' : Reservations} (h : sure → r'.capacity = r.capacity)
    (length align : Nat) :
    Agree sure (fun b b' => reserve r length align = .ok b ∧ reserve r' length align = .ok b')
      (reserve r length align) (reserve r' length align) := by
  by_cases hsure : sure
  · have hgrants : canReserve r' = canReserve r := by
      funext
      simp only [canReserve, h hsure]
    simp only [reserve, hgrants]
    split
    · exact ⟨rfl, rfl⟩
    · trivial
  · rcases reserve r length align with _ | b <;> rcases reserve r' length align with _ | b'
    · trivial
    · exact hsure
    · exact hsure
    · exact ⟨rfl, rfl⟩

/-- Both buffers are reserved or none, and both archives start at the same address. -/
structure Pairing.Even (p : Pairing) : Prop where
  capacity : p.reservations'.capacity = p.reservations.capacity
  base : p.base' = p.base

/-- Dependencies end at the same distance from the bases of `p`. -/
theorem Dependency.Mates.tops {d d' : Dependency} (h : d.Mates p d') :
    d.requested.top.toNat = p.base.toNat + d.mapped.length ∧
      d'.requested.top.toNat = p.base'.toNat + d.mapped.length := by
  obtain ⟨hbase, hlength⟩ := h.requested
  obtain ⟨hbase', hlength'⟩ := h.requested'
  rw [← d.requested.bottom_add_length, ← d'.requested.bottom_add_length, hlength, hlength', h.length, ← hbase, ← hbase']
  exact ⟨rfl, rfl⟩

namespace Session.Mates

variable {s s' : Session}

/-- Archives of `s` and `s'` above the same base start at the same address. -/
theorem requestedBottom?_of_base (h : s.Mates p hot s') (hbase : p.base' = p.base) :
    s'.requestedBottom? = s.requestedBottom? := by
  have hdependency := h.dependency
  simp only [requestedBottom?, h.alignment, h.base, h.base', hbase]
  generalize s.dependency? = d? at hdependency ⊢
  generalize s'.dependency? = d?' at hdependency ⊢
  rcases hdependency with hd | -
  · dsimp only
    rw [hd.tops.1, hd.tops.2, hbase]
  · rfl

/-- The places `n` and `n'` of two archives differ as the bases do. -/
theorem requestedBottom?_shift (h : s.Mates p hot s') {n n' : Nat} (hn : s.requestedBottom? = some n)
    (hn' : s'.requestedBottom? = some n') : n' + p.base.toNat = n + p.base'.toNat := by
  have hdependency := h.dependency
  obtain ⟨k, hk, -, hdvd⟩ := Settings.validate_eq_ok h.valid
  obtain ⟨k', hk', -, hdvd'⟩ := Settings.validate_eq_ok h.valid'
  rw [← hk', h.alignment, hk] at hdvd'
  simp only [requestedBottom?, h.alignment, h.base, h.base', hk] at hn hn' hdvd hdvd'
  generalize s.dependency? = d? at hdependency hn
  generalize s'.dependency? = d?' at hdependency hn'
  rcases hdependency with hd | -
  · dsimp only at hn hn'
    rw [hd.tops.1] at hn
    rw [hd.tops.2] at hn'
    rw [(alignUp?_eq_some.1 hn).2, (alignUp?_eq_some.1 hn').2, roundUp_add hdvd, roundUp_add hdvd']
    omega
  · obtain rfl := Option.some_inj.1 hn
    obtain rfl := Option.some_inj.1 hn'
    exact Nat.add_comm ..

end Session.Mates

namespace SessionM

open Session

theorem paired_refuseBase (base base' : Nat) (bottom? bottom?' top? top?' : Option Nat)
    {P : Session → Session → Prop} {Q : Addr .requested → Addr .requested → Session → Session → Prop} :
    Paired sure P (refuseBase base bottom? top?) (refuseBase base' bottom?' top?') Q := by
  simp only [refuseBase]
  exact (Paired.tell _ _).bind fun _ _ => (Paired.tell _ _).bind fun _ _ => Lockstep.throw _ _

/-- Places are settled in both sessions or in neither, where that is `sure`. -/
theorem paired_placeArchive (hsure : sure → p.Even) (size : Nat) :
    Paired sure (Session.Mates p hot) (placeArchive size) (placeArchive size)
      fun a a' s s' => a'.toNat + p.base.toNat = a.toNat + p.base'.toNat ∧ s.Mates p hot s' := by
  by_cases h : sure
  · have hbase := (hsure h).base
    simp only [placeArchive]
    refine Paired.read fun s s' hs => ?_
    rw [hs.requestedBottom?_of_base hbase, hs.base, hs.base', hbase]
    rcases s.requestedBottom? with - | bottom
    · exact paired_refuseBase _ _ _ _ _ _
    rcases requestedTop? (some bottom) size with - | top
    · exact paired_refuseBase _ _ _ _ _ _
    dsimp only
    split
    · exact Lockstep.pure fun _ _ ht => ⟨rfl, ht⟩
    · exact paired_refuseBase _ _ _ _ _ _
  · intro r r' hr
    have hrun := (Paired.sides (Q := fun a a' s s' => a'.toNat + p.base.toNat = a.toNat + p.base'.toNat ∧ s.Mates p hot s')
      (triple_placeArchive r.session size) (triple_placeArchive r'.session size) ?_
      (fun hs => absurd hs h) fun hs => absurd hs h) r r' ⟨rfl, rfl⟩
    · exact hrun
    · rintro a a' s s' ⟨rfl, ha, -⟩ ⟨rfl, ha', -⟩
      exact ⟨hr.requestedBottom?_shift ha ha', hr⟩

theorem paired_reserveBuffer (hsure : sure → p.Even) (a : Advisories) :
    Paired sure (Session.Mates p hot) (reserveBuffer a) (reserveBuffer a) fun _ _ => Session.Mates p hot := by
  simp only [reserveBuffer]
  refine (Paired.requireStage _ _ fun _ _ h => h.stage).bind fun _ _ => Paired.read fun s s' h => ?_
  obtain ⟨k, hk, hk3, -⟩ := Settings.validate_eq_ok h.valid
  rw [h.alignment, h.estimate, hk, h.reservations, h.reservations']
  refine (Lockstep.forM (A := Eq) (P := Session.Mates p hot) (fun _ _ _ => Paired.tell _ _)
    (List.forall₂_same.2 fun _ _ => rfl)).bind
    fun _ _ => (paired_placeArchive hsure _).bind fun bottom bottom' => Lockstep.assume fun hplace =>
    (Paired.ofBuild (Buffer.agree_reserve (fun hs => (hsure hs).capacity) _ _)).bind fun b b' => Lockstep.assume ?_
  rintro ⟨hb, hb'⟩
  obtain ⟨hbottom, hlength, hzero, hlarge⟩ := reserve_eq_ok hb
  obtain ⟨hbottom', hlength', hzero', -⟩ := reserve_eq_ok hb'
  rw [← hlength] at hlength'
  refine (Paired.tell _ _).bind fun _ _ => (Paired.ofBuild (A := Output.Mates p hot) ?_).bind fun o o' =>
    Lockstep.assume fun ho => Lockstep.bind (Q := fun _ _ => Session.Mates p hot)
    (Paired.update fun _ _ ht => { ht with output := .some ho })
    fun _ _ => Paired.update fun _ _ ht => { ht with stage := rfl }
  simp only [Output.start, hlength']
  rcases harena : Arena.start b.length (2 ^ k) with _ | arena
  · trivial
  · have hmax : 2 ^ k ≤ max (s.estimate.total a (2 ^ k)) (2 ^ k) := Nat.le_max_right ..
    obtain ⟨hle, hdvd⟩ := SizeEstimate.total_bounds (e := s.estimate) (a := a) hk3 (by omega)
    rw [Nat.max_eq_left hle] at hlength
    obtain ⟨hsound, halength, -, -⟩ := Arena.start_eq_ok hk3 (hlength ▸ hdvd) harena
    have hlimit : arena.length < addressLimit := by
      rw [halength]
      exact Nat.lt_of_le_of_lt (Nat.le_add_left ..) b.fits
    exact ⟨hbottom, hbottom', hlength', rfl, ⟨hsound, hlimit⟩,
      fun i _ => by rw [hzero, hzero'], rfl, rfl, hplace⟩

/-- All copies of the heaps of `p` are made alike, from roots that correspond. -/
theorem paired_copyAll (hp : p.Fair) (hsure : sure → p.Even) {roots roots' : List Word}
    (hroots : List.Forall₂ p.RootMate roots roots') (a : Advisories) (templates : List DispatchTemplate) :
    Paired sure (Alongside p fun _ => False) (copyAll roots a templates) (copyAll roots' a templates)
      fun tables tables' s s' => LevelTables p tables.provider tables'.provider ∧ CopiedAlike p s s' := by
  simp only [copyAll]
  refine (paired_gather hp hroots).bind fun _ _ => (paired_reserveBuffer hsure _).bind fun _ _ => ?_
  refine Lockstep.conseq (P := fun s s' => ∃ c, s.Twins p c (fun _ => False) s') (Lockstep.pick fun c => ?_)
    (fun s s' h => ⟨s.catalog, h, rfl⟩) fun _ _ _ _ h => h
  refine (paired_prepareTables templates).bind fun tables tables' => Lockstep.assume fun ht => ?_
  refine Lockstep.conseq (P := CopiedAlike p) ?_
    (fun s s' h => ⟨c, h.toMates.mono fun _ => False.elim, h.known⟩) fun _ _ _ _ h => h
  exact (paired_copyMutable hp ht).bind fun _ _ => (paired_copyReadOnly hp ht).bind fun _ _ =>
    Lockstep.pure fun _ _ h => ⟨ht, h⟩

end SessionM

end SnapshotArchive
