import SnapshotArchive.Proofs.FinalPass
import SnapshotArchive.Proofs.Spans

/-!
The map of an archive. While the copies of a region are listed, the bytes from the start of one copy to the
start of the next are dumped; the last copy and what lies above it follow by themselves. Whatever lies
between the copies, lookup records or blocks that were allocated by hand, the dumps of a region go through
all of its bytes, and the lines between them name its copies, each with the address that it is requested at.
-/

namespace SnapshotArchive

/-- Ranges of bytes that follow each other without gaps, from `lo` up to `hi`. -/
def Tiles : (lo hi : Nat) → List (Nat × Nat) → Prop
  | lo, hi, [] => lo = hi
  | lo, hi, (start, stop) :: rest => start = lo ∧ start ≤ stop ∧ Tiles stop hi rest

namespace Tiles

variable {lo mid hi : Nat} {xs ys : List (Nat × Nat)}

theorem single (h : lo ≤ hi) : Tiles lo hi [(lo, hi)] := ⟨rfl, h, rfl⟩

theorem le (h : Tiles lo hi xs) : lo ≤ hi := by
  induction xs generalizing lo with
  | nil => exact Nat.le_of_eq h
  | cons x rest ih =>
    obtain ⟨rfl, hle, hrest⟩ := h
    exact Nat.le_trans hle (ih hrest)

theorem append (hx : Tiles lo mid xs) (hy : Tiles mid hi ys) : Tiles lo hi (xs ++ ys) := by
  induction xs generalizing lo with
  | nil =>
    obtain rfl : lo = mid := hx
    exact hy
  | cons x rest ih => exact ⟨hx.1, hx.2.1, ih hx.2.2⟩

theorem bounds (h : Tiles lo hi xs) {p : Nat × Nat} (hp : p ∈ xs) : lo ≤ p.1 ∧ p.1 ≤ p.2 ∧ p.2 ≤ hi := by
  induction xs generalizing lo with
  | nil => cases hp
  | cons x rest ih =>
    obtain ⟨rfl, hle, hrest⟩ := h
    rcases List.mem_cons.1 hp with rfl | hp
    · exact ⟨Nat.le_refl _, hle, hrest.le⟩
    · obtain ⟨hlow, hinside⟩ := ih hrest hp
      exact ⟨Nat.le_trans hle hlow, hinside⟩

/-- Every range of `xs` may be cut into smaller ones by `cut`. -/
theorem flatMap {cut : Nat × Nat → List (Nat × Nat)} (h : Tiles lo hi xs)
    (hcut : ∀ p, p.1 ≤ p.2 → Tiles p.1 p.2 (cut p)) : Tiles lo hi (xs.flatMap cut) := by
  induction xs generalizing lo with
  | nil => exact h
  | cons x rest ih =>
    obtain ⟨rfl, hle, hrest⟩ := h
    exact (hcut x hle).append (ih hrest)

/-- Every byte from `lo` up to `hi` belongs to one of the ranges `xs`, and to one only. -/
theorem bytes (h : Tiles lo hi xs) :
    (xs.flatMap fun p => List.range' p.1 (p.2 - p.1)) = List.range' lo (hi - lo) := by
  induction xs generalizing lo with
  | nil =>
    obtain rfl : lo = hi := h
    simp
  | cons x rest ih =>
    obtain ⟨rfl, hle, hrest⟩ := h
    have hsum : hi - x.1 = (x.2 - x.1) + (hi - x.2) := by
      have := hrest.le
      omega
    have hstart : x.2 = x.1 + (x.2 - x.1) := by omega
    rw [List.flatMap_cons, ih hrest, hsum, ← List.range'_append_1, ← hstart]

end Tiles

namespace MapEntry

/-- The bytes that an entry dumps. -/
def range? : MapEntry → Option (Nat × Nat)
  | memory _ _ start stop => some (start, stop)
  | _ => none

/-- Whether an entry names a copy. -/
def isObject : MapEntry → Bool
  | object .. => true
  | _ => false

/-- Whether an entry announces what lies above the copies. -/
def isMisc : MapEntry → Bool
  | misc .. => true
  | _ => false

end MapEntry

/-- The `entries` of a map dump the bytes from `lo` up to `hi`, each dump with the address of its
    first byte, and name the copies `objects` and the rest `miscs`. -/
structure Charts (o : Output) (lo hi : Nat) (objects miscs entries : List MapEntry) : Prop where
  dumps : Tiles lo hi (entries.filterMap MapEntry.range?)
  memory : ∀ entry ∈ entries, entry.isDump = true →
    ∃ start stop, entry = .memory (o.requestedPlace start) o.buffer.words start stop
  objects : entries.filter MapEntry.isObject = objects
  miscs : entries.filter MapEntry.isMisc = miscs

namespace Charts

variable {o : Output} {lo mid hi : Nat} {objects objects' miscs miscs' entries entries' : List MapEntry}

theorem append (h : Charts o lo mid objects miscs entries) (h' : Charts o mid hi objects' miscs' entries') :
    Charts o lo hi (objects ++ objects') (miscs ++ miscs') (entries ++ entries') where
  dumps := by
    rw [List.filterMap_append]
    exact h.dumps.append h'.dumps
  memory entry he := (List.mem_append.1 he).elim (h.memory entry) (h'.memory entry)
  objects := by rw [List.filter_append, h.objects, h'.objects]
  miscs := by rw [List.filter_append, h.miscs, h'.miscs]

theorem nil : Charts o lo lo [] [] [] := ⟨rfl, nofun, rfl, rfl⟩

theorem dump {start stop : Nat} {entry : MapEntry} (h : Session.dump o start stop = .ok entry) :
    Charts o start stop [] [] [entry] := by
  unfold Session.dump at h
  split at h
  · rename_i hle
    cases h
    refine ⟨.single hle.1, fun entry he _ => ?_, rfl, rfl⟩
    exact ⟨start, stop, List.mem_singleton.1 he⟩
  · cases h

theorem object (place : Nat) (kind : ObjectKind) (size : Nat) (description : String) :
    Charts o lo lo [.object place kind size description] [] [.object place kind size description] :=
  ⟨rfl, by simp [MapEntry.isDump], rfl, rfl⟩

theorem misc (place size : Nat) : Charts o lo lo [] [.misc place size] [.misc place size] :=
  ⟨rfl, by simp [MapEntry.isDump], rfl, rfl⟩

theorem region (kind : RegionKind) (bottom top used : Nat) :
    Charts o lo lo [] [] [.region kind bottom top used] :=
  ⟨rfl, by simp [MapEntry.isDump], rfl, rfl⟩

end Charts

namespace Session

variable {s : Session} {o : Output}

/-- An object and where its copy is. -/
structure Copied where
  source : Word
  entry : SourceEntry
  target : Addr .buffer

/-- The copies of the region `kind`, in the order of its list. -/
def copies (s : Session) (kind : RegionKind) : List Copied :=
  (s.books.sources kind).filterMap fun w =>
    (s.catalog.get? w).bind fun e => e.output?.map fun a => ⟨w, e, a⟩

/-- Byte `n` of the buffer will be mapped at `o.requestedBottom + n`. -/
theorem Filled.requestedPlace_eq (h : s.Filled o) {n : Nat} (hn : n ≤ o.buffer.length) :
    o.requestedPlace n = o.requestedBottom.toNat + n := by
  have hplace := Buffer.toNat_addrAt hn
  have hroom := h.room
  have hoffset : (o.buffer.addrAt n).toNat - o.buffer.bottom.toNat = n := by omega
  have happly : o.shift.apply (o.buffer.addrAt n) = .ok ⟨UInt64.ofNat (o.requestedBottom.toNat + n)⟩ := by
    rw [Output.shift, Shift.apply_between _ _ (by omega) (by omega), hoffset]
  rw [Output.requestedPlace, happly]
  exact UInt64.toNat_ofNat_of_lt' (show _ < addressLimit by omega)

/-- The copy of `w` lies in the buffer, and its address `a` has a requested one. -/
theorem HasCopy.requested {w : Word} {e : SourceEntry} {a : Addr .buffer} (hc : s.HasCopy w e a)
    (hs : s.Sound) (ho : s.output? = some o) (hsize : 0 < e.size) :
    ∃ place, ((SessionM.toRequested a).perform s).1 = .ok place ∧
      o.requestedPlace (a.toNat - o.buffer.bottom.toNat) = place.toNat := by
  have hf := hs.filled o ho
  obtain ⟨offset, hoffset, -, -, hend⟩ := hf.layout.inside w e a hc.1 hc.2.2
  have htop := hf.arena.top_le_length
  have hlength := hf.length
  have hroom := hf.room
  have hn : o.buffer.offsetOf? a.word = some offset := Buffer.offsetOf?_eq_some.2 ⟨hoffset, by omega⟩
  have hsub : a.toNat - o.buffer.bottom.toNat = offset := by omega
  have happly : o.shift.apply a = .ok ⟨UInt64.ofNat (o.requestedBottom.toNat + offset)⟩ := by
    rw [Output.shift, Shift.apply_between _ _ (by omega) (by omega), hsub]
  refine ⟨⟨UInt64.ofNat (o.requestedBottom.toNat + offset)⟩, ?_, ?_⟩
  · have hrun : (SessionM.toRequested a).on ⟨s, #[]⟩ =
        (.ok ⟨UInt64.ofNat (o.requestedBottom.toNat + offset)⟩, ⟨s, #[]⟩) := by
      refine SessionM.on_eq_ok ?_
      unfold SessionM.toRequested
      simp [SessionM.wp_output, ho, hn, happly]
    exact congrArg Prod.fst hrun
  · rw [hsub, hf.requestedPlace_eq (by omega)]
    exact (UInt64.toNat_ofNat_of_lt' (show _ < addressLimit by omega)).symm

end Session

end SnapshotArchive
