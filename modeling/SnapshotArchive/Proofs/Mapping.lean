import Mathlib.Tactic.Common
import SnapshotArchive.Proofs.Soundness

/-!
The map of a sound session can always be told. Its dumps run from offset to offset without going back
and end in the buffer, since copies follow each other in their regions.
-/

namespace SnapshotArchive

namespace Session

variable {s : Session} {o : Output}

theorem dump_eq_ok {start stop : Nat} (h : start ≤ stop) (hstop : stop ≤ o.buffer.length) :
    ∃ entry, dump o start stop = .ok entry := ⟨_, if_pos ⟨h, hstop⟩⟩

/-- The entries of copies at `spots` that fit into the buffer; the last dump ends in it as well. -/
theorem objectEntries_eq_ok : ∀ (spots : List (Nat × SourceEntry)) (base limit lo hi : Nat),
    Fits lo hi spots → base ≤ limit → limit ≤ lo → hi ≤ o.buffer.length →
    ∃ entries start stop, s.objectEntries o base limit spots = .ok (entries, start, stop) ∧
      start ≤ stop ∧ stop ≤ o.buffer.length
  | [], base, limit, lo, hi, hfits, hle, hlo, hhi =>
    ⟨[], base, limit, rfl, hle, Nat.le_trans hlo (Nat.le_trans hfits.le hhi)⟩
  | (offset, entry) :: rest, base, limit, lo, hi, hfits, hle, hlo, hhi => by
    obtain ⟨hoffset, hrest⟩ := hfits
    obtain ⟨gap, hgap⟩ : ∃ entry, dump o base offset = .ok entry := dump_eq_ok (by omega)
      (Nat.le_trans (Nat.le_add_right ..) (Nat.le_trans hrest.le hhi))
    obtain ⟨entries, start, stop, heq, hbounds⟩ := objectEntries_eq_ok rest offset
      (offset + entry.size) _ hi hrest (Nat.le_add_right ..) (Nat.le_refl _) hhi
    rw [objectEntries, hgap]
    simp only [bind, Except.bind, heq, pure, Except.pure]
    exact ⟨_, _, _, rfl, hbounds⟩

/-- The entries of the region `kind`, whose copies lie between `lo` and `hi`. -/
theorem regionEntries_eq_ok {kind : RegionKind} {lo hi : Nat}
    (hfits : Fits lo hi (s.placed o kind)) (hlo : (o.arena.region kind).base ≤ lo)
    (hhi : hi ≤ o.buffer.length) (hlimit : (o.arena.region kind).limit ≤ o.buffer.length) :
    ∃ entries, s.regionEntries o kind = .ok entries := by
  obtain ⟨objects, start, stop, heq, hle, hstop⟩ := objectEntries_eq_ok (s := s) (s.placed o kind) _ _
    lo hi hfits (Nat.le_refl _) hlo hhi
  obtain ⟨last, hlast⟩ := dump_eq_ok hle hstop
  have hrest : ∃ entries, restEntries o (o.arena.region kind) stop = .ok entries := by
    unfold restEntries
    split
    · rename_i hlt
      obtain ⟨tail, htail⟩ := dump_eq_ok (o := o) (Nat.le_of_lt hlt) hlimit
      rw [htail]
      exact ⟨_, rfl⟩
    · exact ⟨_, rfl⟩
  obtain ⟨tail, htail⟩ := hrest
  unfold regionEntries
  simp only [bind, Except.bind, heq, hlast, htail, pure, Except.pure]
  exact ⟨_, rfl⟩

theorem archiveMap_eq_ok (h : s.Sound) (ho : s.output? = some o) :
    ∃ entries, s.archiveMap = .ok entries := by
  have hf := h.filled o ho
  have hl := hf.length
  have ha := hf.arena
  have hend := ha.readOnly_limit
  have htop := ha.readOnly_top
  have hmid := ha.readOnly_base
  have hlimit := ha.mutable_limit
  have hmutable := hf.layout.fits_mutable
  have hreadOnly := hf.layout.fits_readOnly
  obtain ⟨mutable, hm⟩ : ∃ entries, s.regionEntries o .mutable = .ok entries :=
    regionEntries_eq_ok hmutable
    (by rw [Arena.region, ha.base]; exact Nat.zero_le _)
    (by have := ha.mutable_top; omega) (by rw [Arena.region]; omega)
  obtain ⟨readOnly, hr⟩ : ∃ entries, s.regionEntries o .readOnly = .ok entries :=
    regionEntries_eq_ok hreadOnly (Nat.le_refl _)
    (by omega) (by rw [Arena.region]; omega)
  unfold archiveMap
  simp only [ho, bind, Except.bind, hm, hr, pure, Except.pure]
  exact ⟨_, rfl⟩

end Session

namespace SessionM

open Session

/-- Telling the map of `s` changes nothing and does not fail. -/
theorem triple_logMap {s : Session} (h : s.Sound) {o : Output} (ho : s.output? = some o) :
    Triple (· = s) logMap (fun _ s' => s' = s) (fun _ _ => False) := by
  rintro r rfl
  obtain ⟨entries, hentries⟩ := archiveMap_eq_ok h ho
  unfold logMap
  simp only [wp_bind, wp_session, hentries]
  exact (Triple.forM (f := fun entry => tell (.map entry)) (I := fun _ => (· = r.session))
    (E := fun _ _ => False) (fun _ _ _ h => h) entries).use rfl (fun _ _ h => h) fun _ _ h => h

end SessionM

end SnapshotArchive
