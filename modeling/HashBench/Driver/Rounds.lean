import HashBench.Driver.Contents

/-! The outer loop of a block as rounds. A round inserts one interval of keys
and then measures, and the two counters of the loop amount to nothing else. -/
namespace HashBench.Driver

open Contract

variable {K T I G : Type} (d : Setup K T I G) (measure : Nat → Run T G PUnit)

/-- The keys of round `r`, and the measurement that ends it. -/
def round (r : Nat) : Run T G PUnit := do
  (List.range' (r * d.config.keyCountMeasurementInterval)
    d.config.keyCountMeasurementInterval).forM (insertKey d)
  measure ((r + 1) * d.config.keyCountMeasurementInterval)

theorem Macros.resultCount_mul (config : Macros) :
    config.resultCount * config.keyCountMeasurementInterval = config.keyCount :=
  Nat.div_mul_cancel (Nat.dvd_of_mod_eq_zero config.interval_dvd)

/-- With `left + 1` keys of the interval to come, the loop inserts them,
measures, and begins the next interval. -/
theorem grow_interval (i j left : Nat)
    (hLeft : j + (left + 1) = d.config.keyCountMeasurementInterval)
    (hRoom : i + (left + 1) ≤ d.config.keyCount) :
    grow d measure i j = (do
      (List.range' i (left + 1)).forM (insertKey d)
      measure (i + (left + 1))
      grow d measure (i + (left + 1)) 0) := by
  induction left generalizing i j with
  | zero =>
      rw [grow, if_pos (by omega), if_pos (by omega), List.range'_one]
      simp
  | succ left ih =>
      have hSum : i + 1 + (left + 1) = i + (left + 1 + 1) := by omega
      have hRange : List.range' i (left + 1 + 1) = i :: List.range' (i + 1) (left + 1) :=
        List.range'_succ
      rw [grow, if_pos (by omega), if_neg (by omega), ih _ _ (by omega) (by omega), hSum, hRange]
      simp

theorem grow_round {r : Nat} (hr : r < d.config.resultCount) :
    grow d measure (r * d.config.keyCountMeasurementInterval) 0 = (do
      round d measure r
      grow d measure ((r + 1) * d.config.keyCountMeasurementInterval) 0) := by
  have hEnd : (r + 1) * d.config.keyCountMeasurementInterval ≤ d.config.keyCount :=
    (Nat.mul_le_mul_right _ hr).trans_eq d.config.resultCount_mul
  obtain ⟨left, hLeft⟩ := Nat.exists_eq_add_one_of_ne_zero d.config.interval_pos.ne'
  rw [Nat.succ_mul] at hEnd
  rw [grow_interval d measure _ 0 left (by omega) (by omega), round, Nat.succ_mul, hLeft]
  simp

/-- The outer loop makes one round for every result, in order. -/
theorem grow_eq_rounds :
    grow d measure 0 0 = (List.range d.config.resultCount).forM (round d measure) := by
  have hRest (left r : Nat) (hCount : r + left = d.config.resultCount) :
      grow d measure (r * d.config.keyCountMeasurementInterval) 0 =
        (List.range' r left).forM (round d measure) := by
    induction left generalizing r with
    | zero =>
        have hEnd : r * d.config.keyCountMeasurementInterval = d.config.keyCount := by
          rw [← d.config.resultCount_mul, ← hCount, Nat.add_zero]
        rw [grow, if_neg (by omega), List.range'_zero]
        rfl
    | succ left ih =>
        rw [grow_round d measure (by omega), ih (r + 1) (by omega), List.range'_succ]
        rfl
  rw [List.range_eq_range', ← hRest d.config.resultCount 0 (Nat.zero_add _), Nat.zero_mul]

variable {d measure}

/-- A block's outer loop, with `inv r` before round `r`. -/
theorem meets_rounds (inv : Nat → State T G → Prop)
    (h : ∀ r < d.config.resultCount, Meets (inv r) (round d measure r) fun _ => inv (r + 1)) :
    Meets (inv 0) (grow d measure 0 0) fun _ => inv d.config.resultCount := by
  rw [grow_eq_rounds]
  exact Meets.forM_range inv h

end HashBench.Driver
