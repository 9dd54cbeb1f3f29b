import Mathlib.Algebra.Group.Nat.Defs
import Mathlib.Data.Nat.Size

/-! Rounding up to a power of two by smearing the highest bit of the
predecessor over the lower ones. -/
namespace RoundUp

/-- `x |= x >> w`. -/
def smear (w x : Nat) : Nat := x ||| x >>> w

/-- Every bit of `y` is set from within the next `w` bits of `x`. -/
def Spread (w x y : Nat) : Prop :=
  ∀ i, y.testBit i = true ↔ ∃ d < w, x.testBit (i + d) = true

theorem spread_one (x : Nat) : Spread 1 x x := by
  intro i
  simp

/-- A shift as wide as the spread doubles it. -/
theorem Spread.smear {w x y : Nat} (h : Spread w x y) : Spread (2 * w) x (smear w y) := by
  intro i
  rw [RoundUp.smear, Nat.testBit_or, Nat.testBit_shiftRight, Bool.or_eq_true, h i, h (w + i)]
  constructor
  · rintro (⟨d, hd, hBit⟩ | ⟨d, hd, hBit⟩)
    · exact ⟨d, by omega, hBit⟩
    · exact ⟨w + d, by omega, by rwa [show i + (w + d) = w + i + d by omega]⟩
  · rintro ⟨d, hd, hBit⟩
    by_cases hLow : d < w
    · exact Or.inl ⟨d, hLow, hBit⟩
    · exact Or.inr ⟨d - w, by omega, by rwa [show w + i + (d - w) = i + d by omega]⟩

/-- A spread over all bits leaves a run of ones. -/
theorem Spread.eq {w x y : Nat} (h : Spread w x y) (hx : x < 2 ^ w) : y + 1 = 2 ^ x.size := by
  have hOnes : y = 2 ^ x.size - 1 := by
    refine Nat.eq_of_testBit_eq fun i => ?_
    rw [Nat.testBit_two_pow_sub_one, Bool.eq_iff_iff, h i, decide_eq_true_iff, Nat.lt_size]
    constructor
    · rintro ⟨d, _, hBit⟩
      exact Nat.le_trans (Nat.pow_le_pow_right Nat.zero_lt_two (Nat.le_add_right i d))
        (Nat.ge_two_pow_of_testBit hBit)
    · intro hLe
      obtain ⟨j, hj, hBit⟩ := Nat.exists_ge_and_testBit_of_ge_two_pow hLe
      have hBelow : j < w := (Nat.pow_lt_pow_iff_right Nat.one_lt_two).mp
        (Nat.lt_of_le_of_lt (Nat.ge_two_pow_of_testBit hBit) hx)
      exact ⟨j - i, by omega, by rwa [Nat.add_sub_cancel' hj]⟩
  rw [hOnes]
  exact Nat.sub_add_cancel (Nat.two_pow_pos _)

end RoundUp
