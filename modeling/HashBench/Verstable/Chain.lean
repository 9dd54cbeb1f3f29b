import HashBench.Verstable.Table
import HashBench.Library.Triangular

/-! The chains of a table, and the loops of the code over them. What the code
writes to a metadatum replaces the bits under one mask. -/
namespace HashBench.Verstable

open Search Chains

section Masks

variable {x y mask mask' : Metadatum}

theorem replaced_and_self (h : y &&& mask = y) : (x &&& ~~~mask ||| y) &&& mask = y := by
  ext i hi
  have hBit := congrArg (fun z => z[i]) h
  simp only [BitVec.getElem_and, BitVec.getElem_or, BitVec.getElem_not] at hBit ⊢
  cases hMask : mask[i] <;> simp_all

theorem replaced_and (h : y &&& mask = y) (hDisjoint : mask &&& mask' = 0#16) :
    (x &&& ~~~mask ||| y) &&& mask' = x &&& mask' := by
  ext i hi
  have hBit := congrArg (fun z => z[i]) h
  have hNone := congrArg (fun z => z[i]) hDisjoint
  simp only [BitVec.getElem_and, BitVec.getElem_or, BitVec.getElem_not, BitVec.getElem_zero] at *
  cases hMask : mask[i] <;> cases hMask' : mask'[i] <;> simp_all

/-- Setting the bits under a mask replaces them by ones. -/
theorem or_eq_replaced (x mask : Metadatum) : x ||| mask = x &&& ~~~mask ||| mask := by
  ext i hi
  simp only [BitVec.getElem_and, BitVec.getElem_or, BitVec.getElem_not]
  cases mask[i] <;> simp

theorem and_of_disjoint (h : y &&& mask = y) (hDisjoint : mask &&& mask' = 0#16) :
    y &&& mask' = 0#16 := by
  rw [← h, BitVec.and_assoc, hDisjoint, BitVec.and_zero]

theorem and_and_self (y mask : Metadatum) : (y &&& mask) &&& mask = y &&& mask := by
  rw [BitVec.and_assoc, BitVec.and_self]

end Masks

/-- The limit of the displacements, which marks the last key of a chain. -/
theorem vtDisplacementMask_toNat : vtDisplacementMask.toNat = 2047 := rfl

theorem ofNat_and_displacementMask {d : Nat} (hd : d ≤ 2047) :
    BitVec.ofNat 16 d &&& vtDisplacementMask = BitVec.ofNat 16 d := by
  refine BitVec.eq_of_toNat_eq ?_
  have hSmall : d % 2 ^ 16 = d := Nat.mod_eq_of_lt (by omega)
  rw [BitVec.toNat_and, BitVec.toNat_ofNat, vtDisplacementMask_toNat, hSmall,
    show 2047 = 2 ^ 11 - 1 from rfl, Nat.and_two_pow_sub_one_eq_mod, Nat.mod_eq_of_lt (by omega)]

theorem vtHashfrag_and (hash : BitVec 64) : vtHashfrag hash &&& vtHashFragMask = vtHashfrag hash :=
  and_and_self _ _

section Fields

variable {x y f : Metadatum}

theorem displacementOf_eq (h : x &&& vtDisplacementMask = y &&& vtDisplacementMask) :
    displacementOf x = displacementOf y := congrArg BitVec.toNat h

theorem displacementOf_ofNat {d : Nat} (hd : d ≤ 2047)
    (h : x &&& vtDisplacementMask = BitVec.ofNat 16 d) : displacementOf x = d := by
  rw [displacementOf, h, BitVec.toNat_ofNat, Nat.mod_eq_of_lt (by omega)]

/-- A bucket that is linked to another displacement keeps its other bits. -/
theorem relinked {d : Nat} (hd : d ≤ 2047) :
    displacementOf (x &&& ~~~vtDisplacementMask ||| BitVec.ofNat 16 d) = d ∧
      (x &&& ~~~vtDisplacementMask ||| BitVec.ofNat 16 d) &&& vtHashFragMask =
        x &&& vtHashFragMask ∧
      (x &&& ~~~vtDisplacementMask ||| BitVec.ofNat 16 d) &&& vtInHomeBucketMask =
        x &&& vtInHomeBucketMask := by
  have hOnly := ofNat_and_displacementMask hd
  exact ⟨displacementOf_ofNat hd (replaced_and_self hOnly), replaced_and hOnly (by decide),
    replaced_and hOnly (by decide)⟩

/-- A bucket that takes over a link keeps its other bits. -/
theorem relinked_and :
    displacementOf (x &&& ~~~vtDisplacementMask ||| y &&& vtDisplacementMask) =
        displacementOf y ∧
      (x &&& ~~~vtDisplacementMask ||| y &&& vtDisplacementMask) &&& vtHashFragMask =
        x &&& vtHashFragMask ∧
      (x &&& ~~~vtDisplacementMask ||| y &&& vtDisplacementMask) &&& vtInHomeBucketMask =
        x &&& vtInHomeBucketMask := by
  have hOnly := and_and_self y vtDisplacementMask
  exact ⟨displacementOf_eq (replaced_and_self hOnly), replaced_and hOnly (by decide),
    replaced_and hOnly (by decide)⟩

/-- A new bucket that is not the first of its chain. -/
theorem joined (hf : f &&& vtHashFragMask = f) :
    displacementOf (f ||| y &&& vtDisplacementMask) = displacementOf y ∧
      (f ||| y &&& vtDisplacementMask) &&& vtHashFragMask = f ∧
      (f ||| y &&& vtDisplacementMask) &&& vtInHomeBucketMask = 0#16 := by
  have hOnly := and_and_self y vtDisplacementMask
  simp only [displacementOf, BitVec.and_or_distrib_right, hOnly, hf,
    and_of_disjoint hf (show vtHashFragMask &&& vtDisplacementMask = 0#16 from by decide),
    and_of_disjoint hf (show vtHashFragMask &&& vtInHomeBucketMask = 0#16 from by decide),
    and_of_disjoint hOnly (show vtDisplacementMask &&& vtHashFragMask = 0#16 from by decide),
    and_of_disjoint hOnly (show vtDisplacementMask &&& vtInHomeBucketMask = 0#16 from by decide),
    BitVec.or_zero, BitVec.zero_or, and_self]

/-- A new bucket that is the only one of its chain. -/
theorem begun (hf : f &&& vtHashFragMask = f) :
    displacementOf (f ||| vtInHomeBucketMask ||| vtDisplacementMask) = 2047 ∧
      (f ||| vtInHomeBucketMask ||| vtDisplacementMask) &&& vtHashFragMask = f ∧
      (f ||| vtInHomeBucketMask ||| vtDisplacementMask) &&& vtInHomeBucketMask =
        vtInHomeBucketMask := by
  simp only [displacementOf, BitVec.and_or_distrib_right, hf,
    and_of_disjoint hf (show vtHashFragMask &&& vtDisplacementMask = 0#16 from by decide),
    and_of_disjoint hf (show vtHashFragMask &&& vtInHomeBucketMask = 0#16 from by decide)]
  refine ⟨by decide, ?_, by decide⟩
  rw [show vtInHomeBucketMask &&& vtHashFragMask = 0#16 by decide,
    show vtDisplacementMask &&& vtHashFragMask = 0#16 by decide, BitVec.or_zero, BitVec.or_zero]

/-- A bucket that becomes the last of its chain. -/
theorem ended :
    displacementOf (x ||| vtDisplacementMask) = 2047 ∧
      (x ||| vtDisplacementMask) &&& vtHashFragMask = x &&& vtHashFragMask ∧
      (x ||| vtDisplacementMask) &&& vtInHomeBucketMask = x &&& vtInHomeBucketMask := by
  rw [or_eq_replaced]
  exact relinked (d := 2047) le_rfl

/-- A bucket that takes over a hash fragment. -/
theorem refragged :
    displacementOf (x &&& ~~~vtHashFragMask ||| y &&& vtHashFragMask) = displacementOf x ∧
      (x &&& ~~~vtHashFragMask ||| y &&& vtHashFragMask) &&& vtHashFragMask =
        y &&& vtHashFragMask ∧
      (x &&& ~~~vtHashFragMask ||| y &&& vtHashFragMask) &&& vtInHomeBucketMask =
        x &&& vtInHomeBucketMask := by
  have hOnly := and_and_self y vtHashFragMask
  exact ⟨displacementOf_eq (replaced_and hOnly (by decide)), replaced_and_self hOnly,
    replaced_and hOnly (by decide)⟩

theorem ne_empty_of_displacement (h : 0 < displacementOf x) : x ≠ vtEmpty := by
  rintro rfl
  exact absurd h (by decide)

end Fields

theorem vtQuadratic_eq (d : Nat) : vtQuadratic d = Triangular.offset d := by
  rw [vtQuadratic, Triangular.offset, Nat.mul_succ]

section Loops

variable {K V : Type} {bp : Blueprint K V} {table : Table K V} {key : K}

theorem isLast_iff {p : Nat} : table.isLast p = true ↔ table.link p = 2047 := by
  rw [Table.isLast, beq_iff_eq, Table.link, displacementOf, ← vtDisplacementMask_toNat]
  exact BitVec.toNat_inj.symm

/-- The home bucket of the key in a bucket. -/
def Table.homeAt (bp : Blueprint K V) (table : Table K V) (p : Nat) : Nat :=
  table.homeBucket bp (table.buckets p).1

/-- These buckets are linked into chains, and their metadata say so. -/
structure Linked (bp : Blueprint K V) (table : Table K V) (occupied : Set Nat) (disp : Nat → Nat) :
    Prop where
  mask : ∃ k, table.bucketsMask + 1 = 2 ^ k
  chained : Chained table.bucketAt 2047 occupied (table.homeAt bp) table.link disp
  frag : ∀ p ∈ occupied,
    table.metadata p &&& vtHashFragMask = vtHashfrag (hashFn bp (table.buckets p).1)
  flag : ∀ p ∈ occupied, table.inHome p = decide (table.homeAt bp p = p)

theorem Table.homeBucket_le (bp : Blueprint K V) (table : Table K V) (key : K) :
    table.homeBucket bp key ≤ table.bucketsMask := Nat.and_le_right

theorem Table.homeBucket_congr {key' : K} (h : bp.cmprKeys key key' = true) :
    table.homeBucket bp key = table.homeBucket bp key' := by
  rw [Table.homeBucket, Table.homeBucket, hashFn, hashFn, bp.hashKey_congr h]

namespace Linked

variable {occupied : Set Nat} {disp : Nat → Nat} {p : Nat}

theorem link_pos (h : Linked bp table occupied disp) (hp : p ∈ occupied) : 0 < table.link p :=
  Nat.zero_lt_of_lt (h.chained.ahead p hp)

theorem ne_empty (h : Linked bp table occupied disp) (hp : p ∈ occupied) :
    table.metadata p ≠ vtEmpty :=
  ne_empty_of_displacement (h.link_pos hp)

theorem bucketAt_zero (h : Linked bp table occupied disp) {b : Nat} (hb : b ≤ table.bucketsMask) :
    table.bucketAt b 0 = b := by
  obtain ⟨k, hk⟩ := h.mask
  obtain hMask : table.bucketsMask = 2 ^ k - 1 := Nat.eq_sub_of_add_eq hk
  rw [Table.bucketAt, show vtQuadratic 0 = 0 from rfl, Nat.add_zero, hMask,
    Nat.and_two_pow_sub_one_eq_mod, Nat.mod_eq_of_lt (by omega)]

/-- The hash fragment of an occupied bucket hides no match. -/
theorem hit_eq (h : Linked bp table occupied disp) (hp : p ∈ occupied) :
    hit bp table key p = bp.cmprKeys (table.buckets p).1 key := by
  rw [hit, h.frag p hp]
  cases hMatch : bp.cmprKeys (table.buckets p).1 key with
  | false => exact Bool.and_false _
  | true => rw [hashFn, hashFn, bp.hashKey_congr hMatch, beq_self_eq_true, Bool.and_true]

/-- The loop over the chain of an occupied home bucket finds the matching key. -/
theorem searchChain_returns (h : Linked bp table occupied disp)
    (hHead : table.homeBucket bp key ∈ occupied)
    (hHome : table.homeAt bp (table.homeBucket bp key) = table.homeBucket bp key) :
    ∃ found, ReturnsTo (fun fuel => searchChain bp fuel table (table.homeBucket bp key) key) found ∧
      ((∃ p ∈ occupied, found = some p ∧ bp.cmprKeys (table.buckets p).1 key = true) ∨
        found = none ∧ ∀ p ∈ occupied, bp.cmprKeys (table.buckets p).1 key = false) := by
  obtain ⟨count, hSearch, hMem, hChain, hStop, hBefore⟩ := h.chained.search_returns hHead hHome
    (fun p => hit bp table key p || table.isLast p) fun p _ _ hLast => by
      rw [isLast_iff.mpr hLast, Bool.or_true]
  refine ⟨_, hSearch.map _, ?_⟩
  change (∃ p ∈ occupied, (if hit bp table key (walk _ _ _ _ count) then _ else none) = some p ∧ _) ∨
    (if hit bp table key (walk _ _ _ _ count) then _ else none) = none ∧ _
  cases hHit : hit bp table key (walk table.bucketAt table.link (table.homeBucket bp key)
    (table.homeBucket bp key) count) with
  | true => exact Or.inl ⟨_, hMem, if_pos rfl, (h.hit_eq hMem).symm.trans hHit⟩
  | false =>
      refine Or.inr ⟨if_neg Bool.false_ne_true, fun p hp => ?_⟩
      by_contra hMatch
      rw [Bool.not_eq_false] at hMatch
      -- The key would lie on the chain, and the loop would have stopped at it.
      have hSame : table.homeAt bp p = table.homeBucket bp key := Table.homeBucket_congr hMatch
      rw [hHit, Bool.false_or] at hStop
      have hZero := (h.chained.home_eq_iff hHead).mp hHome
      obtain ⟨i, hi, rfl⟩ := h.chained.walk_covers hHead hHome (fun i hi => (hBefore i hi).2) hp
        hSame (by omega)
        (h.chained.not_beyond hMem hp (hSame.trans hChain.symm) (isLast_iff.mp hStop))
      have hNot : hit bp table key (walk table.bucketAt table.link (table.homeBucket bp key)
          (table.homeBucket bp key) i) = false := by
        rcases Nat.lt_or_eq_of_le hi with hLt | rfl
        · exact (Bool.or_eq_false_iff.mp (hBefore i hLt).1).1
        · exact hHit
      rw [h.hit_eq hp, hMatch] at hNot
      cases hNot

end Linked

end Loops

end HashBench.Verstable
