import HashBench.Library.Rehash
import HashBench.StbDs.Probe

/-! The hash index of stb_ds: slots that store the hash of a key and its place
in the dense array, and the function that builds an index and copies the slots
of an old one. -/
namespace HashBench.StbDs

open Search OpenAddressing

/-- A hash as it is stored. Zero and one mark empty and deleted slots. -/
abbrev StoredHash := { hash : Nat // 2 ≤ hash }

/-- `if (hash < 2) hash += 2`. -/
def storedHash (hash : Nat) : StoredHash :=
  if h : hash < 2 then ⟨hash + 2, by omega⟩ else ⟨hash, by omega⟩

/-- What a slot in use stores. -/
structure Ref where
  hash : StoredHash
  index : Nat
  deriving DecidableEq

/-- `bucket->hash[i]`: `STBDS_HASH_EMPTY`, `STBDS_HASH_DELETED` or a stored hash. -/
def slotHash : Slot Ref → Nat
  | .empty => 0
  | .deleted => 1
  | .live ref => ref.hash

/-- `bucket->index[i]`: `STBDS_INDEX_EMPTY`, `STBDS_INDEX_DELETED` or an index. -/
def slotIndex : Slot Ref → Int
  | .empty => -1
  | .deleted => -2
  | .live ref => ref.index

theorem slotHash_live_eq_iff {ref : Ref} {hash : StoredHash} :
    slotHash (.live ref) = hash ↔ ref.hash = hash :=
  Subtype.ext_iff.symm

theorem slotHash_eq_zero_iff {s : Slot Ref} : slotHash s = 0 ↔ s = .empty := by
  cases s with
  | live ref =>
      have hTwo := ref.hash.2
      simp only [slotHash, reduceCtorEq, iff_false]
      omega
  | _ => simp [slotHash]

structure HashIndex where
  slotCount : Nat
  usedCount : Nat
  usedCountThreshold : Nat
  usedCountShrinkThreshold : Nat
  tombstoneCount : Nat
  tombstoneCountThreshold : Nat
  seed : Nat
  storage : Nat → Slot Ref

/-- A new index with the thresholds of configuration C1. -/
def newHashIndex (slotCount seed : Nat) : HashIndex where
  slotCount := slotCount
  usedCount := 0
  usedCountThreshold := slotCount * 14 / 16
  usedCountShrinkThreshold := if slotCount ≤ bucketLength then 0 else slotCount * 6 / 16
  tombstoneCount := 0
  tombstoneCountThreshold := slotCount * 2 / 16
  seed := seed
  storage := fun _ => .empty

/-- Copy one slot in use to the first slot of its probe whose hash is zero. -/
def copySlot (fuel slotCount : Nat) (ref : Ref) (storage : Nat → Slot Ref) :
    Option (Nat → Slot Ref) :=
  (probeLoop (fun slot => slotHash (storage slot) == 0) (fun _ acc => acc) slotCount fuel
    (stbdsProbePosition ref.hash slotCount) bucketLength ()).map
      fun found => Function.update storage found.1 (.live ref)

/-- Copy out the first slots of the old storage. -/
def copySlots (fuel slotCount : Nat) (old : Nat → Slot Ref) :
    Nat → (Nat → Slot Ref) → Option (Nat → Slot Ref)
  | 0, storage => some storage
  | i + 1, storage =>
      (copySlots fuel slotCount old i storage).bind fun storage =>
        match old i with
        | .live ref => copySlot fuel slotCount ref storage
        | _ => some storage

/-- `stbds_make_hash_index`. Without an old index the global seed is used. -/
def stbdsMakeHashIndex (hashSeed fuel slotCount : Nat) : Option HashIndex → Option HashIndex
  | none => some (newHashIndex slotCount hashSeed)
  | some ot =>
      let t := newHashIndex slotCount ot.seed
      (copySlots fuel slotCount ot.storage ot.slotCount t.storage).map fun storage =>
        { t with usedCount := ot.usedCount, storage := storage }

/-- The slots that the probe of a stored reference inspects. -/
def refSeq (slotCount : Nat) (ref : Ref) : Nat → Nat :=
  slotSeq slotCount (stbdsProbePosition ref.hash slotCount)

theorem stbdsProbePosition_lt {slotCount k : Nat} (hCount : slotCount = 2 ^ (k + 3)) (hash : Nat) :
    stbdsProbePosition hash slotCount < slotCount := by
  rw [stbdsProbePosition, hCount, Nat.and_two_pow_sub_one_eq_mod]
  exact Nat.mod_lt _ (Nat.two_pow_pos _)

theorem copySlot_eq_place {slotCount k : Nat} (hCount : slotCount = 2 ^ (k + 3)) (fuel : Nat)
    (ref : Ref) (storage : Nat → Slot Ref) :
    copySlot fuel slotCount ref storage = place (refSeq slotCount) (8 * fuel) ref storage := by
  have hStop : (fun slot => slotHash (storage slot) == 0) =
      fun slot => (storage slot).isEmpty := by
    funext slot
    cases storage slot with
    | empty => rfl
    | deleted => rfl
    | live ref =>
        have hStored := ref.hash.2
        simp only [slotHash, Slot.isEmpty_live, beq_eq_false_iff_ne]
        omega
  rw [copySlot, place, hStop, probeLoop_eq _ _ hCount (stbdsProbePosition_lt hCount _),
    Option.map_map]
  rfl

theorem copySlots_eq_placeAll {slotCount k : Nat} (hCount : slotCount = 2 ^ (k + 3)) (fuel : Nat)
    (old : Nat → Slot Ref) (count : Nat) (storage : Nat → Slot Ref) :
    copySlots fuel slotCount old count storage =
      placeAll (refSeq slotCount) (8 * fuel) (liveList old count) storage := by
  induction count with
  | zero => rfl
  | succ count ih =>
      rw [copySlots, ih, liveList]
      cases old count with
      | empty => exact Option.bind_fun_some _
      | deleted => exact Option.bind_fun_some _
      | live ref =>
          rw [placeAll_append]
          congr 1
          funext storage
          show copySlot fuel slotCount ref storage = _
          rw [copySlot_eq_place hCount, placeAll]
          exact (Option.bind_fun_some _).symm

/-- An index in good order: every reference is met by its own probe, and the
counters count the references and the tombstones. -/
structure IndexOk (t : HashIndex) (refs : Multiset Ref) : Prop where
  size : ∃ k, t.slotCount = 2 ^ (k + 3)
  usedCountThreshold_eq : t.usedCountThreshold = t.slotCount * 14 / 16
  tombstoneCountThreshold_eq : t.tombstoneCountThreshold = t.slotCount * 2 / 16
  usedCountShrinkThreshold_eq : t.usedCountShrinkThreshold =
    if t.slotCount ≤ bucketLength then 0 else t.slotCount * 6 / 16
  probed : Probed (refSeq t.slotCount) t.storage t.slotCount
  contents_eq : contents t.storage t.slotCount = refs
  usedCount_eq : t.usedCount = refs.card
  tombstoneCount_eq : t.tombstoneCount = total Slot.grave t.storage t.slotCount

theorem clean_empty {E : Type*} (seq : E → Nat → Nat) (n : Nat) :
    Clean seq (fun _ => .empty) n :=
  ⟨fun _ _ _ hLive => by simp at hLive, fun _ _ => by simp⟩

theorem contents_empty {E : Type*} (n : Nat) :
    contents (fun _ => (.empty : Slot E)) n = 0 :=
  total_eq_zero _ fun _ _ => rfl

namespace IndexOk

variable {t : HashIndex} {refs : Multiset Ref}

/-- The filled slots are those counted in use and those counted deleted. -/
theorem filled_eq (h : IndexOk t refs) :
    total Slot.filled t.storage t.slotCount = t.usedCount + t.tombstoneCount := by
  rw [total_filled, h.contents_eq, h.usedCount_eq, h.tombstoneCount_eq]

/-- Half of a table of more than one bucket is a power of two again. -/
theorem half (h : IndexOk t refs) (hBig : t.slotCount > bucketLength) :
    ∃ k, t.slotCount >>> 1 = 2 ^ (k + 3) := by
  obtain ⟨k, hSize⟩ := h.size
  have hMore : 2 ^ 3 < 2 ^ (k + 3) := hSize ▸ hBig
  have hLt := (Nat.pow_lt_pow_iff_right (by decide)).mp hMore
  refine ⟨k - 1, ?_⟩
  rw [hSize, Nat.shiftRight_one, show k + 3 = (k - 1 + 3) + 1 by omega, pow_succ,
    Nat.mul_div_cancel _ (by decide)]

theorem new {slotCount k : Nat} (hCount : slotCount = 2 ^ (k + 3)) (seed : Nat) :
    IndexOk (newHashIndex slotCount seed) 0 where
  size := ⟨k, hCount⟩
  usedCountThreshold_eq := rfl
  tombstoneCountThreshold_eq := rfl
  usedCountShrinkThreshold_eq := rfl
  probed := (clean_empty _ _).probed
  contents_eq := contents_empty _
  usedCount_eq := rfl
  tombstoneCount_eq := (total_eq_zero _ fun _ _ => rfl).symm

/-- A rebuilt index holds the same references and no tombstone. -/
theorem make (h : IndexOk t refs) {hashSeed fuel slotCount k : Nat}
    (hCount : slotCount = 2 ^ (k + 3)) {t' : HashIndex}
    (hMake : stbdsMakeHashIndex hashSeed fuel slotCount (some t) = some t') :
    IndexOk t' refs ∧ t'.slotCount = slotCount ∧ t'.seed = t.seed ∧ t'.tombstoneCount = 0 ∧
      t'.usedCount = t.usedCount := by
  simp only [stbdsMakeHashIndex, Option.map_eq_some_iff, copySlots_eq_placeAll hCount] at hMake
  obtain ⟨storage, hPlace, rfl⟩ := hMake
  have hBound (ref : Ref) (j : Nat) : refSeq slotCount ref j < slotCount := slotSeq_lt hCount _ j
  obtain ⟨hClean, hContents, _⟩ := (clean_empty (refSeq slotCount) slotCount).placeAll_returned
    (fun ref _ => hBound ref) hPlace
  rw [coe_liveList, contents_empty, add_zero, h.contents_eq] at hContents
  exact ⟨⟨⟨k, hCount⟩, rfl, rfl, rfl, hClean.probed, hContents, h.usedCount_eq,
    hClean.grave_eq_zero.symm⟩, rfl, rfl, rfl, rfl⟩

/-- A rebuild returns when the new index has room for the references. -/
theorem make_returns (h : IndexOk t refs) (hashSeed : Nat) {slotCount k : Nat}
    (hCount : slotCount = 2 ^ (k + 3)) (hRoom : t.usedCount ≤ slotCount) :
    ∃ t', ReturnsTo (fun fuel => stbdsMakeHashIndex hashSeed fuel slotCount (some t)) t' := by
  have hLength : (liveList t.storage t.slotCount).length = t.usedCount := by
    rw [h.usedCount_eq, ← h.contents_eq, ← coe_liveList, Multiset.coe_card]
  obtain ⟨storage, hPlace⟩ := (clean_empty (refSeq slotCount) slotCount).placeAll_returns
    (liveList t.storage t.slotCount) (fun ref _ => slotSeq_lt hCount _)
    (fun ref _ slot hSlot => exists_slotSeq hCount _ hSlot)
    (by rw [contents_empty, Multiset.card_zero, hLength]; omega)
  simp only [stbdsMakeHashIndex, copySlots_eq_placeAll hCount]
  exact ⟨_, (hPlace.scale (by decide)).map _⟩

end IndexOk

end HashBench.StbDs
