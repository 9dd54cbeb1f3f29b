import HashBench.Library.Sorting
import Mathlib.Data.List.Forall2
import Mathlib.Data.Finset.Card
import Mathlib.Order.Interval.Finset.Nat

/-! Order statistics of a list, and the list without so many of its lowest and
highest members. A member of the sorted list is compared with a bound by counting
the members up to that bound. -/
namespace OrderStatistics

variable {α : Type*} [LinearOrder α]

def sorted (xs : List α) : List α := xs.mergeSort fun x y => decide (x ≤ y)

/-- The number of members up to a bound. -/
def countLe (xs : List α) (v : α) : Nat := xs.countP fun x => decide (x ≤ v)

/-- The number of members below a bound. -/
def countLt (xs : List α) (v : α) : Nat := xs.countP fun x => decide (x < v)

/-- Fewer than `k` members are smaller, and at least `k` are not larger. -/
def IsKthSmallest (xs : List α) (k : Nat) (v : α) : Prop :=
  v ∈ xs ∧ countLt xs v < k ∧ k ≤ countLe xs v

/-- Fewer than `k` members are larger, and at least `k` are not smaller. -/
def IsKthLargest (xs : List α) (k : Nat) (v : α) : Prop :=
  v ∈ xs ∧ xs.countP (fun x => decide (v < x)) < k ∧ k ≤ xs.countP (fun x => decide (v ≤ x))

/-- Without the `n` lowest and the `n` highest members. -/
def trimmed (n : Nat) (xs : List α) : List α := ((sorted xs).take (xs.length - n)).drop n

section Sorted

variable (xs : List α)

theorem sorted_perm : (sorted xs).Perm xs := List.mergeSort_perm xs _

@[simp] theorem length_sorted : (sorted xs).length = xs.length := (sorted_perm xs).length_eq

theorem sorted_pairwise : (sorted xs).Pairwise (· ≤ ·) :=
  Sorting.pairwise_mergeSort_key id xs

variable {xs}

/-- A list in order is the sorted list of each of its permutations. -/
theorem eq_sorted {ys : List α} (hPerm : ys.Perm xs) (hSorted : ys.Pairwise (· ≤ ·)) :
    ys = sorted xs :=
  (hPerm.trans (sorted_perm xs).symm).eq_of_pairwise (fun _ _ _ _ => le_antisymm) hSorted
    (sorted_pairwise xs)

theorem sorted_eq_of_perm {ys : List α} (h : xs.Perm ys) : sorted xs = sorted ys :=
  eq_sorted ((sorted_perm xs).trans h) (sorted_pairwise xs)

end Sorted

section Count

/-- In a list in order the members that satisfy a downward closed predicate are
at its front. -/
theorem getElem_iff_lt_countP {p : α → Bool} (hDown : ∀ x y, x ≤ y → p y = true → p x = true)
    {xs : List α} (hSorted : xs.Pairwise (· ≤ ·)) {k : Nat} (hk : k < xs.length) :
    p xs[k] = true ↔ k < xs.countP p := by
  induction xs generalizing k with
  | nil => exact absurd hk (Nat.not_lt_zero k)
  | cons x xs ih =>
      obtain ⟨hHead, hTail⟩ := List.pairwise_cons.mp hSorted
      by_cases hx : p x = true
      · rw [List.countP_cons_of_pos hx]
        cases k with
        | zero => exact ⟨fun _ => Nat.succ_pos _, fun _ => hx⟩
        | succ k =>
            rw [List.getElem_cons_succ, ih hTail (Nat.lt_of_succ_lt_succ hk), Nat.succ_lt_succ_iff]
      · have hNone : ∀ y ∈ xs, ¬ p y = true := fun y hy h => hx (hDown x y (hHead y hy) h)
        rw [List.countP_cons_of_neg hx, List.countP_eq_zero.mpr hNone]
        refine iff_of_false (fun h => ?_) (Nat.not_lt_zero k)
        cases k with
        | zero => exact hx h
        | succ k => exact hNone _ (List.getElem_mem _) h

variable {xs : List α} {k : Nat} {v : α}

theorem sorted_le_iff (hk : k < (sorted xs).length) : (sorted xs)[k] ≤ v ↔ k < countLe xs v := by
  rw [countLe, ← (sorted_perm xs).countP_eq, ← getElem_iff_lt_countP _ (sorted_pairwise xs) hk,
    decide_eq_true_eq]
  intro x y hxy hy
  exact decide_eq_true (hxy.trans (of_decide_eq_true hy))

theorem sorted_lt_iff (hk : k < (sorted xs).length) : (sorted xs)[k] < v ↔ k < countLt xs v := by
  rw [countLt, ← (sorted_perm xs).countP_eq, ← getElem_iff_lt_countP _ (sorted_pairwise xs) hk,
    decide_eq_true_eq]
  intro x y hxy hy
  exact decide_eq_true (hxy.trans_lt (of_decide_eq_true hy))

theorem isKthSmallest_sorted (hk : k < (sorted xs).length) :
    IsKthSmallest xs (k + 1) (sorted xs)[k] :=
  ⟨(sorted_perm xs).mem_iff.mp (List.getElem_mem hk),
    Nat.lt_succ_of_le (not_lt.mp fun h => lt_irrefl _ ((sorted_lt_iff hk).mpr h)),
    (sorted_le_iff hk).mp le_rfl⟩

theorem countP_gt (xs : List α) (v : α) :
    xs.countP (fun x => decide (v < x)) + countLe xs v = xs.length := by
  rw [List.length_eq_countP_add_countP fun x => decide (x ≤ v), Nat.add_comm]
  refine congrArg (countLe xs v + ·) (List.countP_congr fun x _ => ?_)
  rw [decide_eq_true_eq, decide_eq_true_eq, decide_eq_true_eq, not_le]

theorem countP_ge (xs : List α) (v : α) :
    xs.countP (fun x => decide (v ≤ x)) + countLt xs v = xs.length := by
  rw [List.length_eq_countP_add_countP fun x => decide (x < v), Nat.add_comm]
  refine congrArg (countLt xs v + ·) (List.countP_congr fun x _ => ?_)
  rw [decide_eq_true_eq, decide_eq_true_eq, decide_eq_true_eq, not_lt]

theorem isKthLargest_sorted (hLt : k < xs.length)
    (hk : xs.length - 1 - k < (sorted xs).length) :
    IsKthLargest xs (k + 1) (sorted xs)[xs.length - 1 - k] := by
  have hSmallest := isKthSmallest_sorted hk
  have hGt := countP_gt xs (sorted xs)[xs.length - 1 - k]
  have hGe := countP_ge xs (sorted xs)[xs.length - 1 - k]
  refine ⟨hSmallest.1, ?_, ?_⟩
  · have hLe := hSmallest.2.2
    omega
  · have hLess := hSmallest.2.1
    omega

end Count

section Trimmed

variable {n : Nat} {xs ys : List α}

theorem length_trimmed (n : Nat) (xs : List α) : (trimmed n xs).length = xs.length - n - n := by
  rw [trimmed, List.length_drop, List.length_take, length_sorted, Nat.min_eq_left (Nat.sub_le ..)]

theorem getElem_trimmed {k : Nat} (hk : k < (trimmed n xs).length)
    (hSorted : n + k < (sorted xs).length) : (trimmed n xs)[k] = (sorted xs)[n + k] := by
  simp only [trimmed, List.getElem_drop, List.getElem_take]

theorem trimmed_perm (h : xs.Perm ys) : trimmed n xs = trimmed n ys := by
  rw [trimmed, trimmed, sorted_eq_of_perm h, h.length_eq]

/-- The members that are left lie between two order statistics. -/
theorem trimmed_bounds {v : α} (hv : v ∈ trimmed n xs) (hLow : n < (sorted xs).length)
    (hHigh : xs.length - 1 - n < (sorted xs).length) :
    (sorted xs)[n] ≤ v ∧ v ≤ (sorted xs)[xs.length - 1 - n] := by
  obtain ⟨k, hk, rfl⟩ := List.mem_iff_getElem.mp hv
  have hLength := length_trimmed n xs
  have hSize := length_sorted xs
  have hInside : n + k < (sorted xs).length := by omega
  rw [getElem_trimmed hk hInside]
  have hMono := (List.pairwise_iff_getElem.mp (sorted_pairwise xs))
  refine ⟨?_, ?_⟩
  · rcases Nat.eq_zero_or_pos k with rfl | hPos
    · exact le_rfl
    · exact hMono _ _ hLow hInside (by omega)
  · rcases Nat.eq_or_lt_of_le (show n + k ≤ xs.length - 1 - n by omega) with hEq | hLt
    · exact le_of_eq (getElem_congr_idx hEq)
    · exact hMono _ _ hInside hHigh hLt

/-- Fewer members up to every bound make larger members that are left. -/
theorem trimmed_mono (hLength : xs.length = ys.length)
    (hCount : ∀ v, countLe ys v ≤ countLe xs v) :
    List.Forall₂ (· ≤ ·) (trimmed n xs) (trimmed n ys) := by
  have hSize := length_trimmed n xs
  have hSize' := length_trimmed n ys
  refine List.forall₂_iff_get.mpr ⟨by omega, fun k hk hk' => ?_⟩
  have hInside : n + k < (sorted xs).length := by
    rw [length_sorted]
    omega
  have hInside' : n + k < (sorted ys).length := by
    rw [length_sorted]
    omega
  rw [List.get_eq_getElem, List.get_eq_getElem, getElem_trimmed hk hInside,
    getElem_trimmed hk' hInside', sorted_le_iff]
  exact ((sorted_le_iff hInside').mp le_rfl).trans_le (hCount _)

/-- Members that are left do not change where the counts that decide on them agree. -/
theorem trimmed_eq (hLength : xs.length = ys.length)
    (hCount : ∀ k v, n ≤ k → k < xs.length - n → (k < countLe xs v ↔ k < countLe ys v)) :
    trimmed n xs = trimmed n ys := by
  have hSize := length_trimmed n xs
  have hSize' := length_trimmed n ys
  refine List.ext_getElem (by omega) fun k hk hk' => ?_
  have hInside : n + k < (sorted xs).length := by
    rw [length_sorted]
    omega
  have hInside' : n + k < (sorted ys).length := by
    rw [length_sorted]
    omega
  rw [getElem_trimmed hk hInside, getElem_trimmed hk' hInside']
  refine eq_of_forall_ge_iff fun v => ?_
  rw [sorted_le_iff, sorted_le_iff]
  exact hCount _ v (Nat.le_add_right n k) (by omega)

end Trimmed

section Runs

variable {count n : Nat} {r r' : Nat → α} {v : α}

theorem countLe_map_range : countLe ((List.range count).map r) v =
    ((Finset.range count).filter fun i => r i ≤ v).card := by
  rw [countLe, List.countP_map, List.countP_eq_length_filter]
  rfl

/-- Larger values are fewer up to every bound. -/
theorem countLe_mono (h : ∀ i < count, r i ≤ r' i) :
    countLe ((List.range count).map r') v ≤ countLe ((List.range count).map r) v := by
  rw [countLe_map_range, countLe_map_range]
  refine Finset.card_le_card fun i hi => ?_
  obtain ⟨hRange, hLe⟩ := Finset.mem_filter.mp hi
  exact Finset.mem_filter.mpr ⟨hRange, (h i (Finset.mem_range.mp hRange)).trans hLe⟩

/-- Where the highest values are raised, a count of values up to a bound does not
fall below the number of the others. -/
theorem lt_countLe_of_raised {highest : Finset Nat} (hHighest : highest.card ≤ n)
    (hTop : ∀ i ∈ highest, ∀ j < count, j ∉ highest → r j ≤ r i)
    (hUpper : ∀ j < count, j ∉ highest → r' j ≤ r j) {k : Nat} (hk : k < count - n)
    (hCount : k < countLe ((List.range count).map r) v) :
    k < countLe ((List.range count).map r') v := by
  rw [countLe_map_range] at hCount ⊢
  by_cases hCut : ∃ i ∈ highest, r i ≤ v
  · -- a highest value is up to the bound, and with it all values that are not highest
    obtain ⟨i, hi, hLe⟩ := hCut
    have hSubset : Finset.range count \ highest ⊆
        (Finset.range count).filter fun j => r' j ≤ v := fun j hj => by
      obtain ⟨hRange, hNot⟩ := Finset.mem_sdiff.mp hj
      have hLt := Finset.mem_range.mp hRange
      exact Finset.mem_filter.mpr
        ⟨hRange, ((hUpper j hLt hNot).trans (hTop i hi j hLt hNot)).trans hLe⟩
    have hCard := Finset.card_le_card hSubset
    have hSdiff := Finset.le_card_sdiff highest (Finset.range count)
    rw [Finset.card_range] at hSdiff
    omega
  · refine hCount.trans_le (Finset.card_le_card fun j hj => ?_)
    obtain ⟨hRange, hLe⟩ := Finset.mem_filter.mp hj
    have hNot : j ∉ highest := fun hMem => hCut ⟨j, hMem, hLe⟩
    exact Finset.mem_filter.mpr ⟨hRange, (hUpper j (Finset.mem_range.mp hRange) hNot).trans hLe⟩

/-- Where the lowest values are lowered, a count of more values than these was
as large before. -/
theorem lt_countLe_of_lowered {lowest : Finset Nat} (hLowest : lowest.card ≤ n)
    (hBottom : ∀ i ∈ lowest, ∀ j < count, j ∉ lowest → r i ≤ r j)
    (hLower : ∀ j < count, j ∉ lowest → r j ≤ r' j) {k : Nat} (hk : n ≤ k)
    (hCount : k < countLe ((List.range count).map r') v) :
    k < countLe ((List.range count).map r) v := by
  rw [countLe_map_range] at hCount ⊢
  by_cases hCut : ∃ i ∈ lowest, ¬ r i ≤ v
  · -- a lowest value was above the bound, and with it all values that are not lowest
    obtain ⟨i, hi, hGt⟩ := hCut
    have hSubset : ((Finset.range count).filter fun j => r' j ≤ v) ⊆ lowest := fun j hj => by
      obtain ⟨hRange, hLe⟩ := Finset.mem_filter.mp hj
      have hLt := Finset.mem_range.mp hRange
      by_contra hNot
      exact hGt (((hBottom i hi j hLt hNot).trans (hLower j hLt hNot)).trans hLe)
    have hCard := Finset.card_le_card hSubset
    omega
  · refine hCount.trans_le (Finset.card_le_card fun j hj => ?_)
    obtain ⟨hRange, hLe⟩ := Finset.mem_filter.mp hj
    refine Finset.mem_filter.mpr ⟨hRange, ?_⟩
    by_cases hMem : j ∈ lowest
    · exact not_not.mp fun hGt => hCut ⟨j, hMem, hGt⟩
    · exact (hLower j (Finset.mem_range.mp hRange) hMem).trans hLe

/-- At most `n` values that are the highest, and at most `n` that are the lowest,
may be moved outwards without an effect on the values that are left. -/
theorem trimmed_eq_of_outwards {highest lowest : Finset Nat} (hHighest : highest.card ≤ n)
    (hLowest : lowest.card ≤ n)
    (hTop : ∀ i ∈ highest, ∀ j < count, j ∉ highest → r j ≤ r i)
    (hBottom : ∀ i ∈ lowest, ∀ j < count, j ∉ lowest → r i ≤ r j)
    (hRaised : ∀ i ∈ highest, r i ≤ r' i) (hLowered : ∀ i ∈ lowest, r' i ≤ r i)
    (hSame : ∀ i < count, i ∉ highest → i ∉ lowest → r' i = r i) :
    trimmed n ((List.range count).map r) = trimmed n ((List.range count).map r') := by
  have hUpper (j : Nat) (hj : j < count) (hNot : j ∉ highest) : r' j ≤ r j := by
    by_cases hMem : j ∈ lowest
    · exact hLowered j hMem
    · exact (hSame j hj hNot hMem).le
  have hLower (j : Nat) (hj : j < count) (hNot : j ∉ lowest) : r j ≤ r' j := by
    by_cases hMem : j ∈ highest
    · exact hRaised j hMem
    · exact (hSame j hj hMem hNot).ge
  refine trimmed_eq (by simp) fun k v hLow hHigh => ?_
  rw [List.length_map, List.length_range] at hHigh
  exact ⟨lt_countLe_of_raised hHighest hTop hUpper hHigh,
    lt_countLe_of_lowered hLowest hBottom hLower hLow⟩

end Runs

end OrderStatistics
