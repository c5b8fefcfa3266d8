/-!
Stable sorting by halves, by recursion on the lists themselves, so that a sorted list can be computed in
a proof. The result is that of the library's merge sort (`sortBy_eq_mergeSort`), whose laws it has.
-/

namespace SnapshotArchive

variable {α : Type}

/-- Merges `x` and then more elements with a list, given how those are merged; `x` goes before its
    equals. -/
def mergeHead (le : α → α → Bool) (x : α) (mergeRest : List α → List α) : List α → List α
  | [] => x :: mergeRest []
  | y :: ys => if le x y then x :: mergeRest (y :: ys) else y :: mergeHead le x mergeRest ys

/-- Merges two sorted lists; of equals those of the first list come first. -/
def merge (le : α → α → Bool) : List α → List α → List α
  | [], ys => ys
  | x :: xs, ys => mergeHead le x (merge le xs) ys

/-- Sorts by halves, at most `fuel` times halved. -/
def sortHalves (le : α → α → Bool) : (fuel : Nat) → List α → List α
  | 0, xs => xs
  | _ + 1, [] => []
  | _ + 1, [x] => [x]
  | fuel + 1, xs@(_ :: _ :: _) =>
    let half := (xs.length + 1) / 2
    merge le (sortHalves le fuel (xs.take half)) (sortHalves le fuel (xs.drop half))

/-- Sorts by an order. -/
def sortBy (le : α → α → Bool) (xs : List α) : List α := sortHalves le xs.length xs

theorem merge_eq (le : α → α → Bool) (xs ys : List α) : merge le xs ys = xs.merge ys le := by
  induction xs generalizing ys with
  | nil => simp [merge]
  | cons x xs ih =>
    induction ys with
    | nil => simp [merge, mergeHead, ih]
    | cons y ys ihy =>
      rw [List.cons_merge_cons, merge, mergeHead]
      split
      · rw [ih]
      · rw [← ihy, merge]

theorem sortHalves_eq (le : α → α → Bool) {fuel : Nat} {xs : List α} (h : xs.length ≤ fuel) :
    sortHalves le fuel xs = xs.mergeSort le := by
  fun_induction sortHalves le fuel xs with
  | case1 xs =>
    obtain rfl := List.eq_nil_of_length_eq_zero (Nat.le_zero.1 h)
    simp
  | case2 => simp
  | case3 => simp
  | case4 fuel x y rest half ihl ihr =>
    rw [ihl (by simp only [half, List.length_take, List.length_cons] at *; omega),
      ihr (by simp only [half, List.length_drop, List.length_cons] at *; omega), merge_eq,
      List.mergeSort]
    simp [half]

theorem sortBy_eq_mergeSort (le : α → α → Bool) (xs : List α) : sortBy le xs = xs.mergeSort le :=
  sortHalves_eq le (Nat.le_refl _)

theorem perm_sortBy (le : α → α → Bool) (xs : List α) : (sortBy le xs).Perm xs := by
  rw [sortBy_eq_mergeSort]
  exact List.mergeSort_perm xs le

end SnapshotArchive
