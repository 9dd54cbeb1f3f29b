import Mathlib.Data.Nat.ModEq
import Mathlib.Data.Fintype.EquivFin
import Mathlib.Data.Nat.Prime.Basic
import Mathlib.Tactic.Ring
import Mathlib.Tactic.Linarith

/-! Triangular probing: the offsets `0, 1, 3, 6, …` modulo a power of two
visit every residue within one period. -/
namespace Triangular

/-- The sum of the first `j` probe increments. -/
def offset (j : Nat) : Nat := j * (j + 1) / 2

@[simp] theorem offset_zero : offset 0 = 0 := rfl

theorem two_mul_offset (j : Nat) : 2 * offset j = j * (j + 1) :=
  Nat.mul_div_cancel' (Nat.even_mul_succ_self j).two_dvd

theorem offset_succ (j : Nat) : offset (j + 1) = offset j + (j + 1) := by
  have h := two_mul_offset j
  have hNext := two_mul_offset (j + 1)
  nlinarith

/-- A power of two dividing a product with one odd factor divides the other. -/
private theorem two_pow_dvd_of_odd {k a b : Nat} (h : 2 ^ k ∣ a * b) (hOdd : Odd b) :
    2 ^ k ∣ a :=
  (Nat.Coprime.pow_left k (Nat.coprime_two_left.mpr hOdd)).dvd_of_dvd_mul_right h

/-- Two probes of one period never meet. -/
theorem offset_injOn {k i j : Nat} (hj : j < 2 ^ k) (hij : i < j) :
    ¬ offset i ≡ offset j [MOD 2 ^ k] := by
  intro h
  have hDvd : 2 ^ k ∣ offset j - offset i :=
    (Nat.modEq_iff_dvd' (by unfold offset; gcongr)).mp h
  have hProduct : 2 ^ (k + 1) ∣ (j - i) * (i + j + 1) := by
    have hTwice : (j - i) * (i + j + 1) = 2 * (offset j - offset i) := by
      have hi := two_mul_offset i
      have hj' := two_mul_offset j
      obtain ⟨d, rfl⟩ := Nat.exists_eq_add_of_lt hij
      rw [Nat.mul_sub, hi, hj', show i + d + 1 - i = d + 1 by omega]
      refine (Nat.sub_eq_of_eq_add ?_).symm
      ring
    rw [hTwice, pow_succ']
    exact Nat.mul_dvd_mul_left 2 hDvd
  rcases Nat.even_or_odd (j - i) with hEven | hOdd
  · have hSum : Odd (i + j + 1) := by
      obtain ⟨d, hd⟩ := hEven
      exact ⟨i + d, by omega⟩
    have hLe := Nat.le_of_dvd (by omega) (two_pow_dvd_of_odd hProduct hSum)
    rw [pow_succ] at hLe
    omega
  · rw [mul_comm] at hProduct
    have hLe := Nat.le_of_dvd (by omega) (two_pow_dvd_of_odd hProduct hOdd)
    rw [pow_succ] at hLe
    omega

/-- One period of triangular probing reaches every slot from every start. -/
theorem exists_offset {k : Nat} (start target : Nat) (hTarget : target < 2 ^ k) :
    ∃ j < 2 ^ k, (start + offset j) % 2 ^ k = target := by
  let probe : Fin (2 ^ k) → Fin (2 ^ k) := fun j =>
    ⟨(start + offset j) % 2 ^ k, Nat.mod_lt _ (by positivity)⟩
  have hInjective : Function.Injective probe := by
    intro i j h
    have hMod : offset i ≡ offset j [MOD 2 ^ k] :=
      Nat.ModEq.add_left_cancel' start (congrArg Fin.val h)
    rcases Nat.lt_trichotomy i.val j.val with hLt | hEq | hGt
    · exact absurd hMod (offset_injOn j.isLt hLt)
    · exact Fin.ext hEq
    · exact absurd hMod.symm (offset_injOn i.isLt hGt)
  obtain ⟨j, hj⟩ := Finite.surjective_of_injective hInjective ⟨target, hTarget⟩
  exact ⟨j, j.isLt, congrArg Fin.val hj⟩

/-- One step of the running probe position. -/
theorem add_offset_succ (start n j : Nat) :
    (start + offset (j + 1)) % n = ((start + offset j) % n + (j + 1)) % n := by
  rw [offset_succ, ← Nat.add_assoc, Nat.mod_add_mod]

/-- The running position of a probe loop that starts at `hash & mask` and adds
`1`, `2`, and so on under the mask. -/
def probe (mask hash : Nat) : Nat → Nat
  | 0 => hash &&& mask
  | j + 1 => (probe mask hash j + (j + 1)) &&& mask

section Masked

variable {mask k : Nat}

theorem probe_eq (hMask : mask + 1 = 2 ^ k) (hash j : Nat) :
    probe mask hash j = (hash + offset j) % 2 ^ k := by
  obtain rfl : mask = 2 ^ k - 1 := Nat.eq_sub_of_add_eq hMask
  induction j with
  | zero => exact Nat.and_two_pow_sub_one_eq_mod ..
  | succ j ih => rw [probe, ih, Nat.and_two_pow_sub_one_eq_mod, add_offset_succ]

theorem probe_lt (hMask : mask + 1 = 2 ^ k) (hash j : Nat) : probe mask hash j < mask + 1 := by
  rw [probe_eq hMask, hMask]
  exact Nat.mod_lt _ (Nat.two_pow_pos k)

theorem mask_succ {n : Nat} (h : n = 2 ^ k) : n - 1 + 1 = 2 ^ k := by
  have hPos := Nat.two_pow_pos k
  omega

/-- A masked probe inspects every slot. -/
theorem exists_probe (hMask : mask + 1 = 2 ^ k) (hash : Nat) {p : Nat} (hp : p < mask + 1) :
    ∃ j, probe mask hash j = p := by
  obtain ⟨j, _, hj⟩ := exists_offset hash p (hMask ▸ hp)
  exact ⟨j, (probe_eq hMask hash j).trans hj⟩

/-- Triangular probing is back at its start only after a whole period. -/
theorem le_of_probe_eq (hMask : mask + 1 = 2 ^ k) {hash j : Nat} (hj : 0 < j)
    (h : probe mask hash j = probe mask hash 0) : 2 ^ k ≤ j := by
  by_contra hLt
  rw [probe_eq hMask, probe_eq hMask] at h
  exact offset_injOn (Nat.lt_of_not_le hLt) hj (Nat.ModEq.add_left_cancel' hash h.symm)

/-- Triangular probing comes back to its start. -/
theorem exists_probe_eq (hMask : mask + 1 = 2 ^ k) (hash : Nat) :
    ∃ j, 0 < j ∧ probe mask hash j = probe mask hash 0 := by
  have hPos := Nat.two_pow_pos k
  have hTwice := two_mul_offset (2 * 2 ^ k - 1)
  rw [Nat.sub_add_cancel (by omega), Nat.mul_left_comm] at hTwice
  have hPeriod : offset (2 * 2 ^ k - 1) = (2 * 2 ^ k - 1) * 2 ^ k :=
    Nat.eq_of_mul_eq_mul_left Nat.zero_lt_two hTwice
  refine ⟨2 * 2 ^ k - 1, by omega, ?_⟩
  rw [probe_eq hMask, probe_eq hMask, hPeriod, offset_zero, Nat.add_mul_mod_self_right,
    Nat.add_zero]

/-- Before it is back at its start, a masked probe has inspected every slot. -/
theorem exists_probe_lt (hMask : mask + 1 = 2 ^ k) {hash j : Nat} (hj : 0 < j)
    (h : probe mask hash j = probe mask hash 0) {p : Nat} (hp : p < mask + 1) :
    ∃ i < j, probe mask hash i = p := by
  obtain ⟨i, hi, hProbe⟩ := exists_offset hash p (hMask ▸ hp)
  exact ⟨i, hi.trans_le (le_of_probe_eq hMask hj h), (probe_eq hMask hash i).trans hProbe⟩

end Masked

end Triangular
