import Mathlib.Data.Rat.Floor
import Mathlib.Tactic.Positivity
import Mathlib.Tactic.GCongr
import Mathlib.Tactic.Ring

/-! Limits of tables whose size is a power of two, for an exact load factor that
is rounded down. -/
namespace LoadFactor

variable {maxLoadFactor : ℚ} {k : Nat}

theorem floor_lt (hPos : 0 < maxLoadFactor) (hHigh : maxLoadFactor < 1) (k : Nat) :
    ⌊(2 ^ k : ℚ) * maxLoadFactor⌋₊ < 2 ^ k := by
  rw [Nat.floor_lt (by positivity)]
  push_cast
  exact mul_lt_of_lt_one_right (by positivity) hHigh

/-- A load factor of 9/16 or more leaves room past half of the slots. -/
theorem le_floor (hLow : 9 / 16 ≤ maxLoadFactor) (k : Nat) :
    9 * 2 ^ k ≤ ⌊(2 ^ (k + 4) : ℚ) * maxLoadFactor⌋₊ := by
  refine Nat.le_floor ?_
  push_cast
  calc (9 * 2 ^ k : ℚ) = 2 ^ (k + 4) * (9 / 16) := by ring
    _ ≤ 2 ^ (k + 4) * maxLoadFactor := by gcongr

end LoadFactor
