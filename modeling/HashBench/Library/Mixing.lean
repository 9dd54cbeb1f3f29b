import Mathlib.Data.Nat.Prime.Basic
import Mathlib.Data.Nat.ModEq
import Mathlib.Algebra.Order.Ring.Nat
import Mathlib.Logic.Equiv.Defs

/-! The two steps that mixing functions of machine words are made of, a shift
that is exclusively or'ed onto the word and a multiplication, and how much of
the word each of them preserves. The steps that lose nothing are bijections of
the words, which compose. -/
namespace Mixing

variable {w : Nat}

/-- `h ^= h >> n`. -/
def xorShift (n : Nat) (h : BitVec w) : BitVec w := h ^^^ (h >>> n)

/-- A shift by half of the word or more undoes itself. -/
theorem xorShift_xorShift {n : Nat} (hn : w ≤ 2 * n) (h : BitVec w) :
    xorShift n (xorShift n h) = h := by
  refine BitVec.eq_of_getLsbD_eq fun i _ => ?_
  have hHigh : h.getLsbD (n + (n + i)) = false := BitVec.getLsbD_of_ge h _ (by omega)
  simp only [xorShift, BitVec.getLsbD_xor, BitVec.getLsbD_ushiftRight, hHigh, Bool.xor_false,
    Bool.xor_assoc, Bool.xor_self]

theorem xorShift_injective {n : Nat} (hn : w ≤ 2 * n) :
    Function.Injective (xorShift n : BitVec w → BitVec w) :=
  Function.LeftInverse.injective (xorShift_xorShift hn)

/-- Multiplication by a multiple of `2 ^ n` forgets the upper `n` bits. -/
theorem mul_eq_mul_of_modEq {n : Nat} (hn : n ≤ w) {a b c : BitVec w} (hc : 2 ^ n ∣ c.toNat)
    (h : a.toNat ≡ b.toNat [MOD 2 ^ (w - n)]) : a * c = b * c := by
  obtain ⟨u, hu⟩ := hc
  refine BitVec.eq_of_toNat_eq ?_
  rw [BitVec.toNat_mul, BitVec.toNat_mul, hu, ← Nat.mul_assoc, ← Nat.mul_assoc]
  refine Nat.ModEq.mul_right u ?_
  have hWord : 2 ^ w = 2 ^ (w - n) * 2 ^ n := by rw [← Nat.pow_add, Nat.sub_add_cancel hn]
  rw [hWord]
  exact Nat.ModEq.mul_right' (2 ^ n) h

/-- Multiplication forgets no bit below those. -/
theorem modEq_of_mul_eq_mul {n : Nat} {a b c : BitVec w} (hc : ¬ 2 ^ (n + 1) ∣ c.toNat)
    (h : a * c = b * c) : a.toNat ≡ b.toNat [MOD 2 ^ (w - n)] := by
  have hMul : a.toNat * c.toNat ≡ b.toNat * c.toNat [MOD 2 ^ w] := by
    have hNat := congrArg BitVec.toNat h
    rwa [BitVec.toNat_mul, BitVec.toNat_mul] at hNat
  obtain ⟨j, hj, hGcd⟩ := (Nat.dvd_prime_pow Nat.prime_two).mp (Nat.gcd_dvd_left (2 ^ w) c.toNat)
  have hDvd : 2 ^ j ∣ c.toNat := hGcd ▸ Nat.gcd_dvd_right (2 ^ w) c.toNat
  have hLe : j ≤ n := by
    by_contra hLt
    have hMore : n + 1 ≤ j := by omega
    exact hc ((Nat.pow_dvd_pow 2 hMore).trans hDvd)
  have hCancel := hMul.cancel_right_div_gcd (Nat.two_pow_pos w)
  have hWidth : w - n ≤ w - j := by omega
  rw [hGcd, Nat.pow_div hj Nat.two_pos] at hCancel
  exact hCancel.of_dvd (Nat.pow_dvd_pow 2 hWidth)

/-- Multiplication by an odd word forgets nothing. -/
theorem mul_injective {c : BitVec w} (hc : c.toNat % 2 = 1) :
    Function.Injective (fun a : BitVec w => a * c) := by
  intro a b h
  have hModEq : a.toNat ≡ b.toNat [MOD 2 ^ (w - 0)] :=
    modEq_of_mul_eq_mul (by rw [Nat.pow_one]; omega) h
  exact BitVec.eq_of_toNat_eq (hModEq.eq_of_lt_of_lt a.isLt b.isLt)

/-- A shift by half of the word or more, as a bijection. -/
def xorShiftEquiv (n : Nat) (hn : w ≤ 2 * n) : BitVec w ≃ BitVec w where
  toFun := xorShift n
  invFun := xorShift n
  left_inv := xorShift_xorShift hn
  right_inv := xorShift_xorShift hn

/-- Multiplication by a word that has an inverse, as a bijection. -/
def mulEquiv (c d : BitVec w) (h : c * d = 1#w) : BitVec w ≃ BitVec w where
  toFun a := a * c
  invFun a := a * d
  left_inv a := calc
    a * c * d = a * (c * d) := BitVec.mul_assoc a c d
    _ = a := by rw [h, BitVec.mul_one]
  right_inv a := calc
    a * d * c = a * (c * d) := by rw [BitVec.mul_assoc, BitVec.mul_comm d]
    _ = a := by rw [h, BitVec.mul_one]

end Mixing
