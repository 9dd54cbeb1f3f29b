import HashBench.Driver.Graph
import HashBench.Library.OrderStatistics
import Mathlib.Algebra.Group.Action.Defs
import Mathlib.Algebra.Order.BigOperators.Group.List
import Mathlib.Algebra.Order.Group.Nat
import Mathlib.Data.Rat.Cast.Order

/-! The average of a result over the runs is a trimmed mean. It is determined by
the order statistics of the runs that are kept. -/
namespace HashBench.Driver

open OrderStatistics

section Runs

variable (config : OutputConfig) (results : Nat → BitVec 64) (resultIndex : Nat)

def runResult (run : Nat) : Nat := (results (config.flatIndex run resultIndex)).toNat

def runResults : List Nat := (List.range config.runCount).map (runResult config results resultIndex)

/-- The sum of the runs that are not discarded, without a wrap. -/
def retainedSum : Nat :=
  (trimmed (config.discardedRunsCount / 2) (runResults config results resultIndex)).sum

end Runs

section Sum

theorem toNat_foldl_add (words : List (BitVec 64)) (start : BitVec 64) :
    (words.foldl (· + ·) start).toNat = (start.toNat + (words.map BitVec.toNat).sum) % 2 ^ 64 := by
  induction words generalizing start with
  | nil => exact (Nat.mod_eq_of_lt start.isLt).symm
  | cons word words ih =>
      rw [List.foldl_cons, ih, BitVec.toNat_add, Nat.mod_add_mod, List.map_cons, List.sum_cons,
        Nat.add_assoc]

theorem toNat_mergeSort (words : List (BitVec 64)) :
    (words.mergeSort fun left right => decide (left.toNat ≤ right.toNat)).map BitVec.toNat =
      sorted (words.map BitVec.toNat) :=
  eq_sorted ((List.mergeSort_perm words _).map _)
    (List.pairwise_map.mpr (Sorting.pairwise_mergeSort_key BitVec.toNat words))

variable {config : OutputConfig} {results : Nat → BitVec 64} {resultIndex : Nat}

theorem length_runResults : (runResults config results resultIndex).length = config.runCount := by
  rw [runResults, List.length_map, List.length_range]

/-- The code's average, with the sum of `std::accumulate` modulo `2 ^ 64`. -/
theorem adjustedAverageResult_eq : adjustedAverageResult config results resultIndex =
    ((retainedSum config results resultIndex % 2 ^ 64 : Nat) : ℚ) /
      (config.runCount - config.discardedRunsCount : Nat) := by
  have hRuns : runResults config results resultIndex =
      ((List.range config.runCount).map fun run =>
        results (config.flatIndex run resultIndex)).map BitVec.toNat := by
    rw [List.map_map]
    rfl
  rw [adjustedAverageResult, toNat_foldl_add, List.map_drop, List.map_take, toNat_mergeSort,
    ← hRuns, retainedSum, trimmed, length_runResults]
  simp only [BitVec.toNat_ofNat, Nat.zero_mod, Nat.zero_add]

theorem adjustedAverageResult_eq_mean (h : retainedSum config results resultIndex ≤ 2 ^ 64 - 1) :
    adjustedAverageResult config results resultIndex =
      (retainedSum config results resultIndex : ℚ) /
        (config.runCount - config.discardedRunsCount : Nat) := by
  rw [adjustedAverageResult_eq, Nat.mod_eq_of_lt (by omega)]

/-- Runs that leave the same results leave the average. -/
theorem adjustedAverageResult_congr {results' : Nat → BitVec 64}
    (h : trimmed (config.discardedRunsCount / 2) (runResults config results' resultIndex) =
      trimmed (config.discardedRunsCount / 2) (runResults config results resultIndex)) :
    adjustedAverageResult config results' resultIndex =
      adjustedAverageResult config results resultIndex := by
  rw [adjustedAverageResult_eq, adjustedAverageResult_eq, retainedSum, h, retainedSum]

end Sum

section Mean

variable {config : OutputConfig} {results : Nat → BitVec 64} {resultIndex : Nat}

theorem divisor_pos : 0 < config.runCount - config.discardedRunsCount :=
  Nat.sub_pos_of_lt config.discarded_lt

/-- As many results are kept as the divisor says. -/
theorem length_kept : (trimmed (config.discardedRunsCount / 2)
    (runResults config results resultIndex)).length =
      config.runCount - config.discardedRunsCount := by
  have hEven := config.discarded_even
  rw [length_trimmed, length_runResults]
  omega

/-- The sum does not wrap where that of all runs would not. -/
theorem retainedSum_le : retainedSum config results resultIndex ≤
    (runResults config results resultIndex).sum := by
  rw [← (sorted_perm (runResults config results resultIndex)).sum_eq]
  exact ((List.drop_sublist _ _).trans (List.take_sublist _ _)).sum_le_sum
    fun _ _ => Nat.zero_le _

theorem mean_mono {results' : Nat → BitVec 64}
    (h : retainedSum config results' resultIndex ≤ 2 ^ 64 - 1)
    (hLe : ∀ run < config.runCount,
      runResult config results resultIndex run ≤ runResult config results' resultIndex run) :
    adjustedAverageResult config results resultIndex ≤
      adjustedAverageResult config results' resultIndex := by
  have hSum : retainedSum config results resultIndex ≤ retainedSum config results' resultIndex :=
    (trimmed_mono (by rw [List.length_map, List.length_map])
      fun v => countLe_mono hLe).sum_le_sum
  rw [adjustedAverageResult_eq_mean (hSum.trans h), adjustedAverageResult_eq_mean h]
  exact div_le_div_of_nonneg_right (Nat.cast_le.mpr hSum) (Nat.cast_nonneg _)

/-- A quotient of a sum whose terms are bounded. -/
theorem div_bounds {sum count low high : Nat} (hCount : 0 < count) (hLow : count * low ≤ sum)
    (hHigh : sum ≤ count * high) : (low : ℚ) ≤ sum / count ∧ (sum / count : ℚ) ≤ high := by
  have hPos : (0 : ℚ) < count := Nat.cast_pos.mpr hCount
  rw [le_div_iff₀ hPos, div_le_iff₀ hPos]
  constructor
  · exact_mod_cast (Nat.mul_comm low count).trans_le hLow
  · exact_mod_cast hHigh.trans_eq (Nat.mul_comm count high)

/-- The mean of the kept results is between the lowest and the highest of them. -/
theorem mean_bounds (h : retainedSum config results resultIndex ≤ 2 ^ 64 - 1) : ∃ low high : Nat,
    IsKthSmallest (runResults config results resultIndex) (config.discardedRunsCount / 2 + 1) low ∧
    IsKthLargest (runResults config results resultIndex) (config.discardedRunsCount / 2 + 1) high ∧
    (low : ℚ) ≤ adjustedAverageResult config results resultIndex ∧
    adjustedAverageResult config results resultIndex ≤ high := by
  have hEven := config.discarded_even
  have hLt := config.discarded_lt
  have hLength : (runResults config results resultIndex).length = config.runCount :=
    length_runResults
  have hLow : config.discardedRunsCount / 2 <
      (sorted (runResults config results resultIndex)).length := by
    rw [length_sorted]
    omega
  have hHigh : (runResults config results resultIndex).length - 1 -
      config.discardedRunsCount / 2 < (sorted (runResults config results resultIndex)).length := by
    rw [length_sorted]
    omega
  refine ⟨_, _, isKthSmallest_sorted hLow, isKthLargest_sorted (by omega) hHigh, ?_⟩
  have hBounds (v : Nat) (hv : v ∈ trimmed (config.discardedRunsCount / 2)
      (runResults config results resultIndex)) := trimmed_bounds hv hLow hHigh
  have hSumLow := List.card_nsmul_le_sum _ _ fun v hv => (hBounds v hv).1
  have hSumHigh := List.sum_le_card_nsmul _ _ fun v hv => (hBounds v hv).2
  rw [length_kept, smul_eq_mul] at hSumLow hSumHigh
  rw [adjustedAverageResult_eq_mean h]
  exact div_bounds divisor_pos hSumLow hSumHigh

end Mean

/-- The laws of a symmetric trimmed mean. A set of at most half as many runs as
are discarded, whose results no other run exceeds, may take any larger results,
and likewise at the lower end. -/
structure SymmetricTrimmedMean (config : OutputConfig) (results : Nat → BitVec 64)
    (resultIndex : Nat) : Prop where
  divisor : config.runCount - config.discardedRunsCount ≠ 0
  mean : adjustedAverageResult config results resultIndex =
    (retainedSum config results resultIndex : ℚ) /
      (config.runCount - config.discardedRunsCount : Nat)
  permutation : ∀ results' : Nat → BitVec 64,
    (runResults config results' resultIndex).Perm (runResults config results resultIndex) →
    adjustedAverageResult config results' resultIndex =
      adjustedAverageResult config results resultIndex
  monotone : ∀ results' : Nat → BitVec 64,
    (∀ run < config.runCount,
      runResult config results resultIndex run ≤ runResult config results' resultIndex run) →
    retainedSum config results' resultIndex ≤ 2 ^ 64 - 1 →
    adjustedAverageResult config results resultIndex ≤
      adjustedAverageResult config results' resultIndex
  between : ∃ low high : Nat,
    IsKthSmallest (runResults config results resultIndex) (config.discardedRunsCount / 2 + 1) low ∧
    IsKthLargest (runResults config results resultIndex) (config.discardedRunsCount / 2 + 1) high ∧
    (low : ℚ) ≤ adjustedAverageResult config results resultIndex ∧
    adjustedAverageResult config results resultIndex ≤ high
  outwards : ∀ (results' : Nat → BitVec 64) (highest lowest : Finset Nat),
    highest.card ≤ config.discardedRunsCount / 2 → lowest.card ≤ config.discardedRunsCount / 2 →
    (∀ run ∈ highest, ∀ other < config.runCount, other ∉ highest →
      runResult config results resultIndex other ≤ runResult config results resultIndex run) →
    (∀ run ∈ lowest, ∀ other < config.runCount, other ∉ lowest →
      runResult config results resultIndex run ≤ runResult config results resultIndex other) →
    (∀ run ∈ highest,
      runResult config results resultIndex run ≤ runResult config results' resultIndex run) →
    (∀ run ∈ lowest,
      runResult config results' resultIndex run ≤ runResult config results resultIndex run) →
    (∀ run < config.runCount, run ∉ highest → run ∉ lowest →
      runResult config results' resultIndex run = runResult config results resultIndex run) →
    adjustedAverageResult config results' resultIndex =
      adjustedAverageResult config results resultIndex

/-- The average is a symmetric trimmed mean where the sum does not wrap. -/
theorem adjusted_average_result_trimmed (config : OutputConfig) (results : Nat → BitVec 64)
    (resultIndex : Nat) (h : retainedSum config results resultIndex ≤ 2 ^ 64 - 1) :
    SymmetricTrimmedMean config results resultIndex where
  divisor := divisor_pos.ne'
  mean := adjustedAverageResult_eq_mean h
  permutation _ hPerm := adjustedAverageResult_congr (trimmed_perm hPerm)
  monotone _ hLe h' := mean_mono h' hLe
  between := mean_bounds h
  outwards _ _ _ hHighest hLowest hTop hBottom hRaised hLowered hSame :=
    adjustedAverageResult_congr
      (trimmed_eq_of_outwards hHighest hLowest hTop hBottom hRaised hLowered hSame).symm

/-- Five runs, of which the lowest and the highest are discarded. -/
def fiveRuns : OutputConfig := {
  twoMeasurements with
  runCount := 5
  discardedRunsCount := 2
  discarded_lt := by decide
  discarded_even := by decide }

/-- Three of the runs have the highest result. -/
def tiedResults (index : Nat) : BitVec 64 := if index < 4 then 9#64 else BitVec.ofNat 64 index

theorem adjusted_average_result_trimmed_fiveRuns : SymmetricTrimmedMean fiveRuns tiedResults 1 :=
  adjusted_average_result_trimmed fiveRuns tiedResults 1 (retainedSum_le.trans (by decide))

end HashBench.Driver
