import HashBench.Library.Mixing
import Mathlib.Tactic.Linarith
import Mathlib.Tactic.LinearCombination

/-! The seeded hash of the fph shim over the two integer blueprints. A table
can be built for a seed only if the seeded hashes of its keys are distinct. -/
namespace HashBench.Fph

open Mixing

/-- The 64-bit finalizer of both integer blueprints. -/
def finalizer (result : BitVec 64) : BitVec 64 :=
  let result := result ^^^ (result >>> 33)
  let result := result * 0xff51afd7ed558ccd#64
  let result := result ^^^ (result >>> 33)
  let result := result * 0xc4ceb9fe1a85ec53#64
  result ^^^ (result >>> 33)

namespace Uint64Struct448Murmur

def hashKey (key : BitVec 64) : BitVec 64 := finalizer key

end Uint64Struct448Murmur

namespace Uint32Uint32Murmur

def hashKey (key : BitVec 32) : BitVec 64 := finalizer (key.setWidth 64)

end Uint32Uint32Murmur

/-- The hash that is given to the table, where `size_t` has 64 bits. -/
def fphSeedHash {K : Type*} (hashKey : K → BitVec 64) (key : K) (seed : BitVec 64) : BitVec 64 :=
  let h := hashKey key
  let h := h ^^^ (h >>> 33)
  let h := h * (seed + 0xff51afd7ed558ccd#64)
  h ^^^ (h >>> 33)

/-- The seed that the construction draws, whose lowest bit it sets. -/
def buildSeed (draw : BitVec 64) : BitVec 64 := draw ||| 1#64

/-- The seeded hashes of any two keys differ. -/
def Separates {K : Type*} (hashKey : K → BitVec 64) (seed : BitVec 64) : Prop :=
  ∀ key1 key2, key1 ≠ key2 → fphSeedHash hashKey key1 seed ≠ fphSeedHash hashKey key2 seed

section Steps

theorem finalizer_eq (key : BitVec 64) : finalizer key =
    xorShift 33 (xorShift 33 (xorShift 33 key * 0xff51afd7ed558ccd#64) * 0xc4ceb9fe1a85ec53#64) :=
  rfl

theorem finalizer_injective : Function.Injective finalizer := by
  have hShift : Function.Injective (xorShift 33 : BitVec 64 → BitVec 64) :=
    xorShift_injective (by decide)
  exact hShift.comp ((mul_injective (by decide)).comp
    (hShift.comp ((mul_injective (by decide)).comp hShift)))

/-- The seed matters by its multiplication alone. -/
theorem fphSeedHash_eq_iff {K : Type*} {hashKey : K → BitVec 64} {key1 key2 : K}
    {seed : BitVec 64} :
    fphSeedHash hashKey key1 seed = fphSeedHash hashKey key2 seed ↔
      xorShift 33 (hashKey key1) * (seed + 0xff51afd7ed558ccd#64) =
        xorShift 33 (hashKey key2) * (seed + 0xff51afd7ed558ccd#64) := by
  have hShift : Function.Injective (xorShift 33 : BitVec 64 → BitVec 64) :=
    xorShift_injective (by decide)
  exact hShift.eq_iff

end Steps

section Uint64

theorem even_multiplier (seed : BitVec 64) :
    2 ^ 1 ∣ (seed + 0xff51afd7ed558ccd#64).toNat ↔ seed.toNat % 2 = 1 := by
  rw [BitVec.toNat_add, Nat.dvd_iff_mod_eq_zero]
  simp only [BitVec.toNat_ofNat]
  omega

/-- Keys of 64 bits are kept apart exactly by the seeds that make the
multiplier odd. -/
theorem uint64_separates_iff (seed : BitVec 64) :
    Separates Uint64Struct448Murmur.hashKey seed ↔ seed.toNat % 2 = 0 := by
  constructor
  · intro hSeparates
    by_contra hOdd
    refine hSeparates 0#64 0x88a950010454a800#64 (by decide) (fphSeedHash_eq_iff.mpr ?_)
    exact mul_eq_mul_of_modEq (by decide) ((even_multiplier seed).mpr (by omega)) (by decide)
  · intro hEven key1 key2 hNe hEq
    have hOdd : (seed + 0xff51afd7ed558ccd#64).toNat % 2 = 1 := by
      have hIff := even_multiplier seed
      rw [Nat.pow_one, Nat.dvd_iff_mod_eq_zero] at hIff
      omega
    have hHash := mul_injective hOdd (fphSeedHash_eq_iff.mp hEq)
    exact hNe (finalizer_injective (xorShift_injective (by decide) hHash))

end Uint64

section Uint32

/-- The word that is multiplied. On 32 bits the two shifts between the last
multiplication of the finalizer and that of the seed cancel. -/
theorem shifted_hashKey (key : BitVec 32) :
    xorShift 33 (Uint32Uint32Murmur.hashKey key) =
      xorShift 33 (key.setWidth 64 * 0xff51afd7ed558ccd#64) * 0xc4ceb9fe1a85ec53#64 := by
  have hShort : xorShift 33 (key.setWidth 64) = key.setWidth 64 := by
    refine BitVec.eq_of_toNat_eq ?_
    have hLt : key.toNat < 2 ^ 33 := key.isLt.trans (by decide)
    rw [xorShift, BitVec.toNat_xor, BitVec.toNat_ushiftRight, BitVec.toNat_setWidth,
      Nat.mod_eq_of_lt (key.isLt.trans (by decide)), Nat.shiftRight_eq_div_pow,
      Nat.div_eq_of_lt hLt, Nat.xor_zero]
  rw [Uint32Uint32Murmur.hashKey, finalizer_eq, hShort, xorShift_xorShift (by decide)]

/-- Two words that agree in 48 bits after the shift differ by equal patterns of
bits from 15 and from 48 on, and nowhere else. -/
theorem agree_of_shifted {y1 y2 : BitVec 64}
    (h : (xorShift 33 y1).toNat ≡ (xorShift 33 y2).toNat [MOD 2 ^ 48]) :
    y1.toNat % 2 ^ 15 = y2.toNat % 2 ^ 15 ∧
      y1.toNat / 2 ^ 31 % 2 ^ 17 = y2.toNat / 2 ^ 31 % 2 ^ 17 ∧
      (y1.toNat / 2 ^ 15 % 2 ^ 16) ^^^ (y2.toNat / 2 ^ 15 % 2 ^ 16) =
        (y1.toNat / 2 ^ 48) ^^^ (y2.toNat / 2 ^ 48) := by
  have hBits (b : Nat) (hb : b < 48) :
      (y1.toNat.testBit b ^^ y1.toNat.testBit (33 + b)) =
        (y2.toNat.testBit b ^^ y2.toNat.testBit (33 + b)) := by
    have hBit : (decide (b < 48) && (xorShift 33 y1).toNat.testBit b) =
        (decide (b < 48) && (xorShift 33 y2).toNat.testBit b) := by
      rw [← Nat.testBit_mod_two_pow, ← Nat.testBit_mod_two_pow, h]
    simpa only [hb, decide_true, Bool.true_and, xorShift, BitVec.toNat_xor,
      BitVec.toNat_ushiftRight, Nat.testBit_xor, Nat.testBit_shiftRight] using hBit
  have hTop (y : BitVec 64) (b : Nat) (hb : 64 ≤ b) : y.toNat.testBit b = false :=
    Nat.testBit_lt_two_pow (y.isLt.trans_le (Nat.pow_le_pow_right Nat.two_pos hb))
  have hMiddle (b : Nat) (hLow : 31 ≤ b) (hb : b < 48) :
      y1.toNat.testBit b = y2.toNat.testBit b := by
    simpa only [hTop _ (33 + b) (by omega), Bool.xor_false] using hBits b hb
  have hLow (b : Nat) (hb : b < 15) : y1.toNat.testBit b = y2.toNat.testBit b := by
    have hBit := hBits b (by omega)
    rw [hMiddle (33 + b) (by omega) (by omega)] at hBit
    exact Bool.xor_left_inj.mp hBit
  refine ⟨Nat.eq_of_testBit_eq fun b => ?_, Nat.eq_of_testBit_eq fun b => ?_,
    Nat.eq_of_testBit_eq fun b => ?_⟩
  · rw [Nat.testBit_mod_two_pow, Nat.testBit_mod_two_pow]
    by_cases hb : b < 15
    · rw [hLow b hb]
    · simp only [hb, decide_false, Bool.false_and]
  · rw [Nat.testBit_mod_two_pow, Nat.testBit_mod_two_pow, Nat.testBit_div_two_pow,
      Nat.testBit_div_two_pow]
    by_cases hb : b < 17
    · rw [hMiddle (b + 31) (by omega) (by omega)]
    · simp only [hb, decide_false, Bool.false_and]
  · simp only [Nat.testBit_xor, Nat.testBit_mod_two_pow, Nat.testBit_div_two_pow]
    by_cases hb : b < 16
    · have hBit := hBits (b + 15) (by omega)
      rw [show 33 + (b + 15) = b + 48 by omega] at hBit
      simp only [hb, decide_true, Bool.true_and]
      revert hBit
      generalize y1.toNat.testBit (b + 15) = p1
      generalize y2.toNat.testBit (b + 15) = p2
      generalize y1.toNat.testBit (b + 48) = t1
      generalize y2.toNat.testBit (b + 48) = t2
      revert p1 p2 t1 t2
      decide
    · simp only [hb, decide_false, Bool.false_and, Bool.xor_false, hTop _ (b + 48) (by omega)]

/-- Equal patterns of bits differ by amounts that are equal modulo 4 where both
are even. -/
theorem sub_modEq_of_xor {p1 p2 t1 t2 : Nat} (h : p1 ^^^ p2 = t1 ^^^ t2) :
    (p1 + p2) % 2 = (t1 + t2) % 2 ∧ (p1 / 2 + p2 / 2) % 2 = (t1 / 2 + t2 / 2) % 2 := by
  have hParity (a b : Nat) : (a ^^^ b) % 2 = (a + b) % 2 := by
    have hOne := @Nat.xor_mod_two_eq_one a b
    omega
  constructor
  · rw [← hParity, ← hParity, h]
  · rw [← hParity, ← hParity, ← Nat.xor_div_two, ← Nat.xor_div_two, h]

/-- The short products with the first constant that are near a multiple of
`2 ^ 33` are multiples of one of them. -/
theorem near_multiple {k q G : Int} (hk : -2 ^ 17 < k ∧ k < 2 ^ 17) (hq : -2 ^ 16 < q ∧ q < 2 ^ 16)
    (hProduct : 0xff51afd7ed558ccd * k = q + 2 ^ 33 * G) :
    ∃ i, k = 25208 * i ∧ q = 31256 * i := by
  have hRatio : 31256 * k = 25208 * q := by omega
  refine ⟨384625797251201 * k - 179583 * G, ?_, ?_⟩
  · have hZero : 2 ^ 33 * (k - 25208 * (384625797251201 * k - 179583 * G)) = 0 := by
      linear_combination (-179583 * 25208) * hProduct + 179583 * hRatio
    exact sub_eq_zero.mp ((mul_eq_zero.mp hZero).resolve_left (by decide))
  · have hZero : 2 ^ 33 * (q - 31256 * (384625797251201 * k - 179583 * G)) = 0 := by
      linear_combination (-179583 * 31256) * hProduct - 118093 * hRatio
    exact sub_eq_zero.mp ((mul_eq_zero.mp hZero).resolve_left (by decide))

/-- None of these multiples has such a pattern above it. -/
theorem multiple_eq_zero {i g z : Int} (hi : -3 < i ∧ i < 3)
    (hHigh : 53989782424329 * i = g + 2 ^ 16 * z) (hOdd : 31256 * i % 2 = g % 2)
    (hEven : 31256 * i % 2 = 0 → 31256 * i % 4 = g % 4) : i = 0 := by
  have hCases : i = -2 ∨ i = -1 ∨ i = 0 ∨ i = 1 ∨ i = 2 := by
    clear hHigh hOdd hEven
    omega
  rcases hCases with rfl | rfl | rfl | rfl | rfl
  · omega
  · omega
  · rfl
  · omega
  · omega

/-- Two short keys whose products with the first constant differ by such
patterns are the same key. -/
theorem eq_zero_of_pattern {k q g z : Int} (hk : -2 ^ 32 < k ∧ k < 2 ^ 32)
    (hq : -2 ^ 16 < q ∧ q < 2 ^ 16)
    (hProduct : 0xff51afd7ed558ccd * k = 2 ^ 15 * q + 2 ^ 48 * g + 2 ^ 64 * z)
    (hOdd : q % 2 = g % 2) (hEven : q % 2 = 0 → q % 4 = g % 4) : k = 0 := by
  obtain ⟨k', rfl⟩ : ∃ k', k = 2 ^ 15 * k' :=
    ⟨16389 * (q + 2 ^ 33 * g + 2 ^ 49 * z) - 9201646910435888062 * k, by linarith⟩
  have hShort : 0xff51afd7ed558ccd * k' = q + 2 ^ 33 * (g + 2 ^ 16 * z) := by linarith
  have hLess : -2 ^ 17 < k' ∧ k' < 2 ^ 17 := by
    clear hProduct hShort hOdd hEven
    omega
  obtain ⟨i, rfl, rfl⟩ := near_multiple hLess hq hShort
  have hHigh : 53989782424329 * i = g + 2 ^ 16 * z := by linarith
  have hi : -3 < i ∧ i < 3 := by
    clear hProduct hShort hOdd hEven hHigh
    omega
  rw [multiple_eq_zero hi hHigh hOdd hEven, mul_zero, mul_zero]

/-- A word in the pieces between which the shift relates bits. -/
theorem eq_pieces (y : Nat) : y = y % 2 ^ 15 + 2 ^ 15 * (y / 2 ^ 15 % 2 ^ 16) +
    2 ^ 31 * (y / 2 ^ 31 % 2 ^ 17) + 2 ^ 48 * (y / 2 ^ 48) := by
  omega

/-- The bits of two products that agree in 48 bits after the shift, as patterns. -/
theorem eq_of_agree {n1 n2 y1 y2 : Nat} (hn1 : n1 < 2 ^ 32) (hn2 : n2 < 2 ^ 32)
    (hy1 : y1 = n1 * 0xff51afd7ed558ccd % 2 ^ 64) (hy2 : y2 = n2 * 0xff51afd7ed558ccd % 2 ^ 64)
    (hLow : y1 % 2 ^ 15 = y2 % 2 ^ 15) (hMiddle : y1 / 2 ^ 31 % 2 ^ 17 = y2 / 2 ^ 31 % 2 ^ 17)
    (hXor : (y1 / 2 ^ 15 % 2 ^ 16) ^^^ (y2 / 2 ^ 15 % 2 ^ 16) = (y1 / 2 ^ 48) ^^^ (y2 / 2 ^ 48)) :
    n1 = n2 := by
  obtain ⟨hOdd, hHalf⟩ := sub_modEq_of_xor hXor
  obtain ⟨z1, hWord1⟩ : ∃ z, n1 * 0xff51afd7ed558ccd = 2 ^ 64 * z + y1 :=
    ⟨_, hy1 ▸ (Nat.div_add_mod _ _).symm⟩
  obtain ⟨z2, hWord2⟩ : ∃ z, n2 * 0xff51afd7ed558ccd = 2 ^ 64 * z + y2 :=
    ⟨_, hy2 ▸ (Nat.div_add_mod _ _).symm⟩
  clear hy1 hy2 hXor
  have hSplit1 := eq_pieces y1
  have hSplit2 := eq_pieces y2
  have hp1 : y1 / 2 ^ 15 % 2 ^ 16 < 2 ^ 16 := Nat.mod_lt _ (by decide)
  have hp2 : y2 / 2 ^ 15 % 2 ^ 16 < 2 ^ 16 := Nat.mod_lt _ (by decide)
  generalize y1 / 2 ^ 15 % 2 ^ 16 = p1 at *
  generalize y2 / 2 ^ 15 % 2 ^ 16 = p2 at *
  generalize y1 / 2 ^ 31 % 2 ^ 17 = m1 at *
  generalize y1 / 2 ^ 48 = t1 at *
  generalize y2 / 2 ^ 48 = t2 at *
  generalize y1 % 2 ^ 15 = a1 at *
  rw [← hLow, ← hMiddle] at hSplit2
  have hProduct : 0xff51afd7ed558ccd * ((n1 : Int) - n2) =
      2 ^ 15 * ((p1 : Int) - p2) + 2 ^ 48 * ((t1 : Int) - t2) + 2 ^ 64 * ((z1 : Int) - z2) := by
    zify at hWord1 hWord2 hSplit1 hSplit2
    linear_combination hWord1 - hWord2 + hSplit1 - hSplit2
  clear hWord1 hWord2 hSplit1 hSplit2
  have hParity : ((p1 : Int) - p2) % 2 = ((t1 : Int) - t2) % 2 := by
    clear hProduct
    omega
  have hFour : ((p1 : Int) - p2) % 2 = 0 → ((p1 : Int) - p2) % 4 = ((t1 : Int) - t2) % 4 := by
    clear hProduct
    omega
  have hZero : (n1 : Int) - n2 = 0 := by
    refine eq_zero_of_pattern ?_ ?_ hProduct hParity hFour
    · clear hProduct hParity hFour
      omega
    · clear hProduct hParity hFour
      omega
  exact Int.ofNat_inj.mp (Int.sub_eq_zero.mp hZero)

/-- Keys of 32 bits have distinct multiplied words, in their lower 48 bits. -/
theorem key_eq_of_modEq {key1 key2 : BitVec 32}
    (h : (xorShift 33 (Uint32Uint32Murmur.hashKey key1)).toNat ≡
      (xorShift 33 (Uint32Uint32Murmur.hashKey key2)).toNat [MOD 2 ^ 48]) : key1 = key2 := by
  have hProduct (x : BitVec 64) : (x * 0xc4ceb9fe1a85ec53#64).toNat ≡
      x.toNat * 0xc4ceb9fe1a85ec53 [MOD 2 ^ 48] := by
    rw [BitVec.toNat_mul]
    exact Nat.mod_mod_of_dvd _ (Nat.pow_dvd_pow 2 (by decide))
  rw [shifted_hashKey, shifted_hashKey] at h
  have hCancel := ((hProduct _).symm.trans (h.trans (hProduct _))).cancel_right_of_coprime
    (by decide)
  obtain ⟨hLow, hMiddle, hXor⟩ := agree_of_shifted hCancel
  have hWord (key : BitVec 32) : (key.setWidth 64 * 0xff51afd7ed558ccd#64).toNat =
      key.toNat * 0xff51afd7ed558ccd % 2 ^ 64 := by
    rw [BitVec.toNat_mul, BitVec.toNat_setWidth, Nat.mod_eq_of_lt (key.isLt.trans (by decide))]
    rfl
  exact BitVec.eq_of_toNat_eq
    (eq_of_agree key1.isLt key2.isLt (hWord key1) (hWord key2) hLow hMiddle hXor)

/-- Keys of 32 bits are kept apart exactly by the seeds for which the
multiplier is no multiple of `2 ^ 17`. -/
theorem uint32_separates_iff (seed : BitVec 64) :
    Separates Uint32Uint32Murmur.hashKey seed ↔
      ¬ 2 ^ 17 ∣ (seed + 0xff51afd7ed558ccd#64).toNat := by
  constructor
  · intro hSeparates hDvd
    refine hSeparates 32832481#32 2975120353#32 (by decide) (fphSeedHash_eq_iff.mpr ?_)
    exact mul_eq_mul_of_modEq (by decide) hDvd (by decide)
  · intro hNot key1 key2 hNe hEq
    exact hNe (key_eq_of_modEq (modEq_of_mul_eq_mul hNot (fphSeedHash_eq_iff.mp hEq)))

end Uint32

section Construction

theorem buildSeed_odd (draw : BitVec 64) : (buildSeed draw).toNat % 2 = 1 := by
  rw [buildSeed, BitVec.toNat_or]
  exact Nat.or_mod_two_eq_one.mpr (Or.inr rfl)

/-- The shim adds an odd constant to the seed. Keys of 64 bits are thus kept
apart by even seeds only, which the construction never passes, and keys of 32
bits by the seeds that leave less than 17 low zeros in the sum. -/
theorem fph_seed_hash_separates_iff (seed draw : BitVec 64) :
    (Separates Uint64Struct448Murmur.hashKey seed ↔ seed.toNat % 2 = 0) ∧
    ¬ Separates Uint64Struct448Murmur.hashKey (buildSeed draw) ∧
    (Separates Uint32Uint32Murmur.hashKey seed ↔
      ¬ 2 ^ 17 ∣ (seed + 0xff51afd7ed558ccd#64).toNat) := by
  refine ⟨uint64_separates_iff seed, fun hSeparates => ?_, uint32_separates_iff seed⟩
  have hEven := (uint64_separates_iff (buildSeed draw)).mp hSeparates
  rw [buildSeed_odd] at hEven
  exact absurd hEven (by decide)

/-- Two pairs of distinct keys with equal seeded hashes, under seeds that the
construction may draw. -/
theorem fph_seed_hash_collides :
    ((0#64 ≠ 0x88a950010454a800#64) ∧
      fphSeedHash Uint64Struct448Murmur.hashKey 0#64 (buildSeed 0#64) =
        fphSeedHash Uint64Struct448Murmur.hashKey 0x88a950010454a800#64 (buildSeed 0#64)) ∧
    (32832481#32 ≠ 2975120353#32) ∧
      fphSeedHash Uint32Uint32Murmur.hashKey 32832481#32 (buildSeed 49064778989728563#64) =
        fphSeedHash Uint32Uint32Murmur.hashKey 2975120353#32
          (buildSeed 49064778989728563#64) := by
  decide

end Construction

end HashBench.Fph
