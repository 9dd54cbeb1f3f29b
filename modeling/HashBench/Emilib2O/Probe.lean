import HashBench.Emilib2O.Table
import Mathlib.Data.Int.GCD
import Mathlib.Data.Nat.Prime.Basic
import Mathlib.Tactic.Ring

/-! The rounds of a probe. Each reads a group of 16 buckets, cut off at the end
of the table. Together they read every bucket but, in a table of 32, perhaps
the first one. -/
namespace HashBench.Emilib2O

section Lanes

variable {mask : Nat → Bool} {bucket b : Nat}

/-- The bucket is in a group. -/
def InGroup (bucket b : Nat) : Prop := bucket ≤ b ∧ b < bucket + simdBytes

theorem firstLane_eq_some (h : firstLane mask bucket = some b) :
    InGroup bucket b ∧ mask b = true := by
  obtain ⟨lane, hFind, rfl⟩ := Option.map_eq_some_iff.mp h
  have hLt := List.mem_range.mp (List.mem_of_find?_eq_some hFind)
  refine ⟨⟨Nat.le_add_right .., Nat.add_lt_add_left hLt _⟩, ?_⟩
  simpa using List.find?_some hFind

theorem firstLane_eq_none : firstLane mask bucket = none ↔ ∀ b, InGroup bucket b → mask b = false := by
  rw [firstLane, Option.map_eq_none_iff, List.find?_eq_none]
  constructor
  · intro h b hb
    obtain ⟨lane, rfl⟩ := Nat.exists_eq_add_of_le hb.1
    simpa using h lane (List.mem_range.mpr (Nat.lt_of_add_lt_add_left hb.2))
  · intro h lane hLane
    simp [h (bucket + lane) ⟨Nat.le_add_right .., Nat.add_lt_add_left (List.mem_range.mp hLane) _⟩]

theorem firstLane_isSome : (firstLane mask bucket).isSome = true ↔
    ∃ b, InGroup bucket b ∧ mask b = true := by
  constructor
  · intro h
    obtain ⟨b, hb⟩ := Option.isSome_iff_exists.mp h
    exact ⟨b, firstLane_eq_some hb⟩
  · rintro ⟨b, hIn, hMask⟩
    by_contra hNone
    rw [Option.not_isSome_iff_eq_none, firstLane_eq_none] at hNone
    rw [hNone b hIn] at hMask
    cases hMask

end Lanes

section Walk

variable {k n main : Nat}

theorem and_mask (hn : n = 2 ^ k) (x : Nat) : x &&& (n - 1) = x % n := by
  rw [hn, Nat.and_two_pow_sub_one_eq_mod]

theorem getNextBucket_eq (hn : n = 2 ^ k) (bucket offset : Nat) : getNextBucket n bucket offset =
    (bucket + (if offset < 8 then simdBytes * offset else n / 32) + 1) % n := and_mask hn _

theorem walk_lt (hn : n = 2 ^ k) (hMain : main < n) (offset round : Nat) :
    walk n main offset round < n := by
  cases round with
  | zero => exact hMain
  | succ round =>
      rw [walk, getNextBucket_eq hn]
      exact Nat.mod_lt _ (Nat.zero_lt_of_lt hMain)

/-- A walk taken up again at a later round. -/
theorem walk_add (offset round : Nat) :
    walk n (walk n main 0 offset) offset round = walk n main 0 (offset + round) := by
  induction round with
  | zero => rfl
  | succ round ih => rw [walk, ih, ← Nat.add_assoc, walk, Nat.zero_add]

/-- From round 7 on the step is the same. -/
theorem walk_late (hn : n = 2 ^ k) (hMain : main < n) {r : Nat} (hr : 7 ≤ r) (i : Nat) :
    walk n main 0 (r + i) = (walk n main 0 r + i * (n / 32 + 1)) % n := by
  induction i with
  | zero => rw [Nat.zero_mul, Nat.add_zero, Nat.add_zero, Nat.mod_eq_of_lt (walk_lt hn hMain 0 r)]
  | succ i ih =>
      rw [← Nat.add_assoc, walk, getNextBucket_eq hn, if_neg (by omega), ih, Nat.add_assoc,
        Nat.mod_add_mod, Nat.succ_mul, Nat.add_assoc]

/-- A step without a common divisor leads everywhere. -/
theorem exists_steps {step : Nat} (hStep : Nat.Coprime step n) (start : Nat) {b : Nat}
    (hb : b < n) : ∃ i < n, (start + i * step) % n = b := by
  obtain ⟨m, hLt, hm⟩ := Nat.exists_mul_mod_eq_of_coprime (b + n * start - start) hStep
    (Nat.ne_of_gt (Nat.zero_lt_of_lt hb))
  have hLe : start ≤ b + n * start :=
    (Nat.le_mul_of_pos_left start (Nat.zero_lt_of_lt hb)).trans (Nat.le_add_left ..)
  refine ⟨m, hLt, ?_⟩
  rw [Nat.mul_comm m, Nat.add_mod, hm, ← Nat.add_mod, Nat.add_sub_cancel' hLe,
    Nat.add_mul_mod_self_left, Nat.mod_eq_of_lt hb]

/-- Every bucket other than the first is read again and again. -/
theorem exists_round (hn : n = 2 ^ (k + 4)) (hMain : main < n) {r : Nat} (hr : 7 ≤ r) {b : Nat}
    (hPos : 0 < b) (hb : b < n) : ∃ i < n, InGroup (walk n main 0 (r + i)) b := by
  by_cases hOne : k = 1
  · -- In a table of 32 the step is 2, and the group from `b` or from `b - 1` is met.
    subst hOne
    obtain rfl : n = 32 := hn
    have hStart := walk_lt (show 32 = 2 ^ 5 from rfl) hMain 0 r
    refine ⟨(b + 32 - walk 32 main 0 r) / 2, by omega, ?_⟩
    rw [walk_late (show 32 = 2 ^ 5 from rfl) hMain hr, InGroup, simdBytes]
    omega
  · have hCoprime : Nat.Coprime (n / 32 + 1) n := by
      rw [hn]
      refine Nat.Coprime.pow_right _ ?_
      rw [Nat.coprime_two_right, Nat.odd_iff]
      rcases Nat.lt_or_ge k 1 with hZero | hMore
      · obtain rfl : k = 0 := by omega
        rfl
      · obtain ⟨j, rfl⟩ := Nat.exists_eq_add_of_le' (show 2 ≤ k by omega)
        have hHalf : 2 ^ (j + 2 + 4) / 32 = 2 * 2 ^ j := by
          rw [show 2 ^ (j + 2 + 4) = 2 * 2 ^ j * 32 by ring]
          exact Nat.mul_div_cancel _ (by decide)
        omega
    obtain ⟨i, hLt, hi⟩ := exists_steps hCoprime (walk n main 0 r) hb
    refine ⟨i, hLt, ?_⟩
    rw [walk_late hn hMain hr, hi]
    exact ⟨Nat.le_refl b, Nat.lt_add_of_pos_right (by decide)⟩

end Walk

end HashBench.Emilib2O
