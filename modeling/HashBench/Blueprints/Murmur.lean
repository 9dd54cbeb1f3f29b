import HashBench.Fph.SeedHash

/-! The hash codes of the two integer blueprints. The finalizer is composed of
bijections of the 64-bit words, so that a hash code determines its key. -/
namespace HashBench.Blueprints

open Mixing Fph

namespace Uint64Struct448Murmur

def cmprKeys (key1 key2 : BitVec 64) : Bool := key1 == key2

end Uint64Struct448Murmur

namespace Uint32Uint32Murmur

def cmprKeys (key1 key2 : BitVec 32) : Bool := key1 == key2

end Uint32Uint32Murmur

section Inverse

/-- The finalizer, step by step. The second factors are the inverses of the two
multipliers modulo `2 ^ 64`. -/
def finalizerEquiv : BitVec 64 ≃ BitVec 64 :=
  (xorShiftEquiv 33 (by decide)).trans <|
  (mulEquiv 0xff51afd7ed558ccd#64 0x4f74430c22a54005#64 (by decide)).trans <|
  (xorShiftEquiv 33 (by decide)).trans <|
  (mulEquiv 0xc4ceb9fe1a85ec53#64 0x9cb4b2f8129337db#64 (by decide)).trans <|
  xorShiftEquiv 33 (by decide)

/-- The key of a hash code, by the inverse steps in the opposite order. -/
def unhashKey (result : BitVec 64) : BitVec 64 :=
  let key := result ^^^ (result >>> 33)
  let key := key * 0x9cb4b2f8129337db#64
  let key := key ^^^ (key >>> 33)
  let key := key * 0x4f74430c22a54005#64
  key ^^^ (key >>> 33)

theorem hashKey_eq_finalizerEquiv : Uint64Struct448Murmur.hashKey = finalizerEquiv := rfl

theorem unhashKey_eq_symm : unhashKey = finalizerEquiv.symm := rfl

example : unhashKey (Uint64Struct448Murmur.hashKey 12345#64) = 12345#64 := by decide

end Inverse

section Collisions

variable {w : Nat}

/-- An injective hash makes the comparison of keys redundant. -/
theorem beq_iff_of_injective {hashKey : BitVec w → BitVec 64}
    (hInjective : Function.Injective hashKey) (key1 key2 : BitVec w) :
    (key1 == key2) = true ↔ hashKey key1 = hashKey key2 := by
  rw [beq_iff_eq, hInjective.eq_iff]

theorem uint32_hashKey_injective : Function.Injective Uint32Uint32Murmur.hashKey := by
  intro key1 key2 h
  have hWide : key1.setWidth 64 = key2.setWidth 64 := finalizerEquiv.injective h
  have hNat := congrArg BitVec.toNat hWide
  rw [BitVec.toNat_setWidth_of_le (by decide), BitVec.toNat_setWidth_of_le (by decide)] at hNat
  exact BitVec.eq_of_toNat_eq hNat

/-- Both integer blueprints have hash codes without collisions. The 64-bit hash
is undone by `unhashKey` on either side. -/
theorem murmur_hash_collision_free :
    (Function.LeftInverse unhashKey Uint64Struct448Murmur.hashKey ∧
      Function.RightInverse unhashKey Uint64Struct448Murmur.hashKey) ∧
    Function.Bijective Uint64Struct448Murmur.hashKey ∧
    Function.Injective Uint32Uint32Murmur.hashKey ∧
    (∀ key1 key2, Uint64Struct448Murmur.cmprKeys key1 key2 = true ↔
      Uint64Struct448Murmur.hashKey key1 = Uint64Struct448Murmur.hashKey key2) ∧
    (∀ key1 key2, Uint32Uint32Murmur.cmprKeys key1 key2 = true ↔
      Uint32Uint32Murmur.hashKey key1 = Uint32Uint32Murmur.hashKey key2) := by
  have hBijective : Function.Bijective Uint64Struct448Murmur.hashKey :=
    finalizerEquiv.bijective
  refine ⟨⟨?_, ?_⟩, hBijective, uint32_hashKey_injective, ?_, ?_⟩
  · exact finalizerEquiv.symm_apply_apply
  · exact finalizerEquiv.apply_symm_apply
  · exact beq_iff_of_injective hBijective.injective
  · exact beq_iff_of_injective uint32_hashKey_injective

end Collisions

end HashBench.Blueprints
