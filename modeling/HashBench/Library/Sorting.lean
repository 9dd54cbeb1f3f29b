import Mathlib.Data.List.Sort
import Mathlib.Order.Basic

/-! Sorting that need not be stable, and the last match in a sorted list. -/
namespace Sorting

variable {α β : Type*}

/-- A procedure that puts a list in the order of a comparison. Which of two
equivalent elements comes first is open. -/
structure Sorter (lt : α → α → Prop) where
  sort : List α → List α
  perm (xs : List α) : (sort xs).Perm xs
  sorted (xs : List α) : (sort xs).Pairwise fun x y => ¬ lt y x

theorem Sorter.mem_iff {lt : α → α → Prop} (s : Sorter lt) {xs : List α} {x : α} :
    x ∈ s.sort xs ↔ x ∈ xs := (s.perm xs).mem_iff

theorem pairwise_mergeSort_key [LinearOrder β] (key : α → β) (xs : List α) :
    (xs.mergeSort fun x y => decide (key x ≤ key y)).Pairwise fun x y => key x ≤ key y := by
  refine (List.pairwise_mergeSort (fun x y z hxy hyz => ?_) (fun x y => ?_) xs).imp fun h => ?_
  · rw [decide_eq_true_eq] at hxy hyz ⊢
    exact hxy.trans hyz
  · rw [Bool.or_eq_true, decide_eq_true_eq, decide_eq_true_eq]
    exact le_total _ _
  · exact of_decide_eq_true h

variable {p : α → Bool} {xs : List α} {x : α}

end Sorting
