import Mathlib.Data.Nat.ModEq

/-! The digits of a number, and what they become when the number grows by one.
A carry that reaches a position has turned every digit below it to zero. -/
namespace Positional

variable {b : Nat}

/-- The digit of `b ^ j`. -/
def digit (b n j : Nat) : Nat := n / b ^ j % b

theorem digit_lt (hb : 0 < b) (n j : Nat) : digit b n j < b := Nat.mod_lt _ hb

@[simp] theorem digit_zero (b j : Nat) : digit b 0 j = 0 := by
  rw [digit, Nat.zero_div, Nat.zero_mod]

/-- Numbers are determined by their digits. -/
theorem eq_of_digit_eq {w m n : Nat} (hm : m < b ^ w) (hn : n < b ^ w)
    (h : ∀ j < w, digit b m j = digit b n j) : m = n := by
  have hMod : ∀ v ≤ w, m % b ^ v = n % b ^ v := by
    intro v hv
    induction v with
    | zero => rw [Nat.pow_zero, Nat.mod_one, Nat.mod_one]
    | succ v ih =>
        have hDigit : m / b ^ v % b = n / b ^ v % b := h v hv
        rw [Nat.mod_pow_succ, Nat.mod_pow_succ, ih (Nat.le_of_succ_le hv), hDigit]
  rw [← Nat.mod_eq_of_lt hm, ← Nat.mod_eq_of_lt hn]
  exact hMod w le_rfl

section Successor

variable {n j k : Nat}

/-- Going from `n` to `n + 1`, the carry reaches position `j`. -/
def Carries (b n j : Nat) : Prop := b ^ j ∣ n + 1

theorem carries_zero (b n : Nat) : Carries b n 0 := by
  rw [Carries, Nat.pow_zero]
  exact Nat.one_dvd _

/-- Below the carry the digits turn to zero. -/
theorem digit_succ_of_lt (h : Carries b n j) (hk : k < j) : digit b (n + 1) k = 0 := by
  have hDvd : b ^ k * b ∣ n + 1 := (Nat.pow_dvd_pow b hk).trans h
  exact Nat.mod_eq_zero_of_dvd (Nat.dvd_div_of_mul_dvd hDvd)

theorem div_succ (h : Carries b n j) : (n + 1) / b ^ j = n / b ^ j + 1 := by
  have hDvd : b ^ j ∣ n + 1 := h
  rw [Nat.succ_div, if_pos hDvd]

/-- The carry stops at a digit that is not the last one. -/
theorem digit_succ_self (h : Carries b n j) (hDigit : digit b n j + 1 < b) :
    digit b (n + 1) j = digit b n j + 1 := by
  rw [digit, div_succ h, ← Nat.mod_add_mod]
  exact Nat.mod_eq_of_lt hDigit

/-- Above the carry the digits stay. -/
theorem digit_succ_of_gt (h : Carries b n j) (hDigit : digit b n j + 1 < b) (hk : j < k) :
    digit b (n + 1) k = digit b n k := by
  have hNot : ¬ b ^ k ∣ n + 1 := by
    intro hDvd
    have hZero := digit_succ_of_lt (k := j) (hDvd : Carries b n k) hk
    rw [digit_succ_self h hDigit] at hZero
    omega
  rw [digit, Nat.succ_div, if_neg hNot]
  rfl

/-- The last digit hands the carry on. -/
theorem Carries.next (h : Carries b n j) (hDigit : digit b n j + 1 = b) :
    Carries b n (j + 1) := by
  have hQuotient : b ∣ (n + 1) / b ^ j := by
    rw [div_succ h, Nat.dvd_iff_mod_eq_zero, ← Nat.mod_add_mod,
      show n / b ^ j % b + 1 = b from hDigit, Nat.mod_self]
  rw [Carries, Nat.pow_succ, ← Nat.mul_div_cancel' (h : b ^ j ∣ n + 1)]
  exact Nat.mul_dvd_mul_left _ hQuotient

end Successor

end Positional
