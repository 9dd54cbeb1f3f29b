import HashBench.Verstable.Table
import Mathlib.Algebra.Order.Ring.Rat
import Mathlib.Tactic.Linarith

/-! The sizes of Verstable's arrays. An array that was allocated is small enough
for one of twice as many buckets to be asked for, and a number of keys that some
power of two of buckets is enough for gets the first such power. -/
namespace HashBench.Verstable

open Search

section Arrays

variable {bucketSize bucketCount : Nat} {allocator : Allocator}

/-- A size that does not wrap around is that of the array. -/
theorem totalAllocSize_eq (h : arraySize bucketSize bucketCount < 2 ^ 64) :
    totalAllocSize bucketSize bucketCount = arraySize bucketSize bucketCount := by
  unfold arraySize at h ⊢
  unfold totalAllocSize metadataOffset
  omega

theorem arraySize_mono {bucketCount' : Nat} (h : bucketCount ≤ bucketCount') :
    arraySize bucketSize bucketCount ≤ arraySize bucketSize bucketCount' := by
  have hBuckets := Nat.mul_le_mul_right bucketSize h
  unfold arraySize
  omega

theorem arraySize_double :
    arraySize bucketSize (bucketCount * 2) ≤ arraySize bucketSize bucketCount * 2 := by
  have hBuckets : bucketCount * 2 * bucketSize = bucketCount * bucketSize * 2 :=
    Nat.mul_right_comm ..
  unfold arraySize
  omega

/-- The metadata alone take two bytes for every bucket. -/
theorem lt_arraySize : bucketCount * 2 < arraySize bucketSize bucketCount := by
  unfold arraySize
  omega

theorem lt_of_arraySize_two_pow {m : Nat} (h : arraySize bucketSize (2 ^ m) < 2 ^ 64) :
    m < 64 := by
  have hLt : 2 ^ m * 2 < arraySize bucketSize (2 ^ m) := lt_arraySize
  have hPow : 2 ^ m < 2 ^ 64 := by omega
  exact (Nat.pow_lt_pow_iff_right (by decide)).mp hPow

theorem doubled_eq (h : arraySize bucketSize bucketCount < 2 ^ 64) :
    doubled bucketCount = bucketCount * 2 :=
  Nat.mod_eq_of_lt (lt_arraySize.trans h)

/-- No array that was allocated is larger than `PTRDIFF_MAX`. -/
theorem arraySize_lt_of_malloc (h : arraySize bucketSize bucketCount < 2 ^ 64)
    (hMalloc : allocator.malloc (totalAllocSize bucketSize bucketCount) = true) :
    arraySize bucketSize bucketCount < 2 ^ 63 :=
  totalAllocSize_eq h ▸ allocator.max _ hMalloc

theorem arraySize_double_lt (h : arraySize bucketSize bucketCount < 2 ^ 63) :
    arraySize bucketSize (bucketCount * 2) < 2 ^ 64 := by
  have hLe : arraySize bucketSize (bucketCount * 2) ≤ arraySize bucketSize bucketCount * 2 :=
    arraySize_double
  omega

end Arrays

section Requests

variable {maxLoad : ℚ} {size : Nat}

/-- Doubling a power of two gives the next one, or wraps around. -/
theorem doubled_two_pow (k : Nat) : doubled (2 ^ k) = 0 ∨ doubled (2 ^ k) = 2 ^ (k + 1) := by
  rw [doubled, ← pow_succ]
  rcases Nat.lt_or_ge (k + 1) 64 with hLt | hGe
  · exact Or.inr (Nat.mod_eq_of_lt (Nat.pow_lt_pow_right (by decide) hLt))
  · exact Or.inl (Nat.mod_eq_zero_of_dvd (pow_dvd_pow 2 hGe))

/-- A loop that ends does so at a power of two. From zero it never ends. -/
theorem minBucketCountFrom_returned {fuel bucketCount result : Nat} (hSize : size ≠ 0)
    (hCount : bucketCount = 0 ∨ ∃ k, bucketCount = 2 ^ k)
    (hEq : minBucketCountFrom maxLoad fuel size bucketCount = some result) :
    ∃ k, result = 2 ^ k := by
  induction fuel generalizing bucketCount with
  | zero => cases hEq
  | succ fuel ih =>
      have hPos : (0 : ℚ) < size := by exact_mod_cast Nat.pos_of_ne_zero hSize
      rw [minBucketCountFrom] at hEq
      split_ifs at hEq with hShort
      · refine ih ?_ hEq
        rcases hCount with rfl | ⟨k, rfl⟩
        · exact Or.inl rfl
        · exact (doubled_two_pow k).imp_right fun hNext => ⟨k + 1, hNext⟩
      · obtain rfl := Option.some.inj hEq
        refine hCount.resolve_left fun hZero => hShort ?_
        rwa [hZero, Nat.cast_zero, zero_mul]

/-- The number of buckets for some keys is a power of two, or there are none. -/
theorem minBucketCountForSize_returned {fuel result : Nat}
    (hEq : minBucketCountForSize maxLoad fuel size = some result) :
    (size = 0 ∧ result = 0) ∨ ∃ k, result = 2 ^ k := by
  unfold minBucketCountForSize at hEq
  split_ifs at hEq with hZero
  · exact Or.inl ⟨hZero, (Option.some.inj hEq).symm⟩
  · exact Or.inr (minBucketCountFrom_returned hZero (Or.inr ⟨3, rfl⟩) hEq)

theorem minBucketCountFrom_returns {k m : Nat} (hLe : k ≤ m) (hm : m < 64)
    (hEnough : (size : ℚ) ≤ (2 ^ m : Nat) * maxLoad) :
    ∃ j ≤ m, ReturnsTo (fun fuel => minBucketCountFrom maxLoad fuel size (2 ^ k)) (2 ^ j) := by
  induction hn : m - k generalizing k with
  | zero =>
      obtain rfl : k = m := by omega
      refine ⟨k, le_rfl, ReturnsTo.of_succ ?_⟩
      simp only [minBucketCountFrom, if_neg (not_lt.mpr hEnough)]
      exact ReturnsTo.pure _
  | succ n ih =>
      by_cases hShort : ((2 ^ k : Nat) : ℚ) * maxLoad < size
      · have hNext : doubled (2 ^ k) = 2 ^ (k + 1) := by
          rw [doubled, ← pow_succ]
          exact Nat.mod_eq_of_lt (Nat.pow_lt_pow_right (by decide) (by omega))
        obtain ⟨j, hj, hReturns⟩ := @ih (k + 1) (by omega) (by omega)
        refine ⟨j, hj, ReturnsTo.of_succ ?_⟩
        simp only [minBucketCountFrom, if_pos hShort, hNext]
        exact hReturns
      · refine ⟨k, hLe, ReturnsTo.of_succ ?_⟩
        simp only [minBucketCountFrom, if_neg hShort]
        exact ReturnsTo.pure _

/-- The number of buckets for some keys, of which `2 ^ m` are enough. -/
theorem minBucketCountForSize_returns {m : Nat} (hLow : 3 ≤ m) (hm : m < 64)
    (hEnough : (size : ℚ) ≤ (2 ^ m : Nat) * maxLoad) :
    ∃ bucketCount, ReturnsTo (fun fuel => minBucketCountForSize maxLoad fuel size) bucketCount ∧
      (bucketCount = 0 ∨ ∃ j ≤ m, bucketCount = 2 ^ j) := by
  unfold minBucketCountForSize
  split_ifs
  · exact ⟨0, ReturnsTo.pure _, Or.inl rfl⟩
  · obtain ⟨j, hj, hReturns⟩ := minBucketCountFrom_returns hLow hm hEnough
    exact ⟨2 ^ j, hReturns, Or.inr ⟨j, hj, rfl⟩⟩

theorem steady_minBucketCountForSize (maxLoad : ℚ) (size : Nat) :
    Steady fun fuel => minBucketCountForSize maxLoad fuel size := by
  have hFrom (bucketCount : Nat) :
      Steady fun fuel => minBucketCountFrom maxLoad fuel size bucketCount := by
    intro fuel
    induction fuel generalizing bucketCount with
    | zero => exact fun _ _ _ hNone => by cases hNone
    | succ fuel ih =>
        intro fuel' v hLe hSome
        obtain ⟨fuel', rfl⟩ := Nat.exists_eq_add_of_le' (Nat.one_le_of_lt hLe)
        simp only [minBucketCountFrom] at hSome ⊢
        split_ifs at hSome ⊢
        · exact ih _ fuel' v (Nat.le_of_succ_le_succ hLe) hSome
        · exact hSome
  exact Steady.ite (Steady.pure _) (hFrom _)

/-- No more buckets are asked for than are known to be enough. -/
theorem minBucketCountForSize_le {fuel j m : Nat} (hLow : 3 ≤ m) (hm : m < 64)
    (hEnough : (size : ℚ) ≤ (2 ^ m : Nat) * maxLoad)
    (hEq : minBucketCountForSize maxLoad fuel size = some (2 ^ j)) : j ≤ m := by
  obtain ⟨bucketCount, hReturns, hCases⟩ := minBucketCountForSize_returns hLow hm hEnough
  obtain rfl := (steady_minBucketCountForSize maxLoad size).eq_of_returnsTo hReturns hEq
  rcases hCases with hZero | ⟨j', hLe, hPow⟩
  · exact absurd hZero (Nat.two_pow_pos j).ne'
  · rwa [Nat.pow_right_injective (le_refl 2) hPow]

end Requests

end HashBench.Verstable
