import HashBench.Library.Search
import HashBench.Library.Triangular
import Mathlib.Data.Nat.Bitwise
import Mathlib.Tactic.IntervalCases

/-! The probe loops of stb_ds. A slot is named by the number
`bucket * STBDS_BUCKET_LENGTH + lane`. Each round inspects the eight slots of
one bucket, from the current position to the end of the bucket and then from
its beginning, and moves on to another bucket by a growing step. -/
namespace HashBench.StbDs

open Search

/-- `STBDS_BUCKET_LENGTH`. -/
def bucketLength : Nat := 8

/-- `STBDS_BUCKET_SHIFT`. -/
def bucketShift : Nat := 3

/-- `STBDS_BUCKET_MASK`. -/
def bucketMask : Nat := bucketLength - 1

/-- `stbds_probe_position`. -/
def stbdsProbePosition (hash slotCount : Nat) : Nat := hash &&& (slotCount - 1)

/-- The slots of the bucket of `pos` in the order of the two inner loops. -/
def bucketSlots (pos : Nat) : List Nat :=
  let bucket := pos >>> bucketShift
  let limit := pos &&& bucketMask
  (List.range' limit (bucketLength - limit) ++ List.range limit).map (bucket * bucketLength + ·)

variable {σ : Type*}

/-- The inner loops: the stopping slot, or what was noted in passing. -/
def scanBucket (stop : Nat → Bool) (update : Nat → σ → σ) : List Nat → σ → (Nat × σ) ⊕ σ
  | [], acc => .inr acc
  | slot :: rest, acc =>
      if stop slot then .inl (slot, acc) else scanBucket stop update rest (update slot acc)

/-- The outer `for (;;)` loop. The fuel bounds the number of buckets. -/
def probeLoop (stop : Nat → Bool) (update : Nat → σ → σ) (slotCount : Nat) :
    Nat → Nat → Nat → σ → Option (Nat × σ)
  | 0, _, _, _ => none
  | fuel + 1, pos, step, acc =>
      match scanBucket stop update (bucketSlots pos) acc with
      | .inl found => some found
      | .inr acc =>
          probeLoop stop update slotCount fuel ((pos + step) &&& (slotCount - 1))
            (step + bucketLength) acc

/-- The slot inspected in round `j` of a probe from `pos`. -/
def slotSeq (slotCount pos j : Nat) : Nat :=
  let start := (pos + 8 * Triangular.offset (j / 8)) % slotCount
  start / 8 * 8 + (start % 8 + j % 8) % 8

theorem bucketSlots_eq (pos : Nat) :
    bucketSlots pos = (List.range 8).map fun i => pos / 8 * 8 + (pos % 8 + i) % 8 := by
  have hMask : pos &&& bucketMask = pos % 8 := Nat.and_two_pow_sub_one_eq_mod pos 3
  have hShift : pos >>> bucketShift = pos / 8 := Nat.shiftRight_eq_div_pow pos 3
  have hLimit : pos % 8 < 8 := Nat.mod_lt _ (by decide)
  have hOrder : List.range' (pos % 8) (8 - pos % 8) ++ List.range (pos % 8) =
      (List.range 8).map fun i => (pos % 8 + i) % 8 := by
    generalize pos % 8 = limit at hLimit
    interval_cases limit <;> rfl
  rw [bucketSlots, hMask, hShift, bucketLength, hOrder, List.map_map]
  rfl

/-- Scanning the next positions of a sequence is a part of the search. -/
theorem search_scanBucket (stop : Nat → Bool) (update : Nat → σ → σ) {seq : Nat → Nat}
    (slots : List Nat) {j : Nat} (hSeq : ∀ i (hi : i < slots.length), seq (j + i) = slots[i])
    (fuel : Nat) (acc : σ) :
    (search stop update seq (slots.length + fuel) j acc).map (fun found => (seq found.1, found.2)) =
      match scanBucket stop update slots acc with
      | .inl found => some found
      | .inr acc => (search stop update seq fuel (j + slots.length) acc).map
          fun found => (seq found.1, found.2) := by
  induction slots generalizing j acc with
  | nil => simp [scanBucket]
  | cons slot rest ih =>
      have hHead : seq j = slot := hSeq 0 (Nat.succ_pos _)
      have hTail : ∀ i (hi : i < rest.length), seq (j + 1 + i) = rest[i] := by
        intro i hi
        rw [Nat.add_right_comm]
        exact hSeq (i + 1) (Nat.succ_lt_succ hi)
      rw [List.length_cons, Nat.add_right_comm, search, scanBucket, hHead]
      by_cases hStop : stop slot
      · simp [hStop, hHead]
      · rw [if_neg hStop, if_neg hStop, ih hTail, Nat.add_assoc, Nat.add_comm 1]

/-- The nested loops inspect the slots of `slotSeq` one after the other. -/
theorem probeLoop_eq (stop : Nat → Bool) (update : Nat → σ → σ) {slotCount k pos : Nat}
    (hCount : slotCount = 2 ^ (k + 3)) (hPos : pos < slotCount) (fuel : Nat) (acc : σ) :
    probeLoop stop update slotCount fuel pos bucketLength acc =
      (search stop update (slotSeq slotCount pos) (8 * fuel) 0 acc).map
        fun found => (slotSeq slotCount pos found.1, found.2) := by
  suffices h : ∀ b acc, probeLoop stop update slotCount fuel
      ((pos + 8 * Triangular.offset b) % slotCount) (8 * (b + 1)) acc =
      (search stop update (slotSeq slotCount pos) (8 * fuel) (8 * b) acc).map
        fun found => (slotSeq slotCount pos found.1, found.2) by
    have hStart := h 0 acc
    rwa [Triangular.offset_zero, Nat.mul_zero, Nat.add_zero, Nat.mod_eq_of_lt hPos] at hStart
  induction fuel with
  | zero => intros; rfl
  | succ fuel ih =>
      intro b acc
      have hSeq : ∀ i (hi : i < (bucketSlots ((pos + 8 * Triangular.offset b) % slotCount)).length),
          slotSeq slotCount pos (8 * b + i) =
            (bucketSlots ((pos + 8 * Triangular.offset b) % slotCount))[i] := by
        intro i hi
        have hLane : i < 8 := by simpa [bucketSlots_eq] using hi
        simp only [bucketSlots_eq, List.getElem_map, List.getElem_range, slotSeq]
        rw [show (8 * b + i) / 8 = b by omega, show (8 * b + i) % 8 = i by omega]
      have hScan := search_scanBucket stop update _ hSeq (8 * fuel) acc
      have hLength : (bucketSlots ((pos + 8 * Triangular.offset b) % slotCount)).length = 8 := by
        simp [bucketSlots_eq]
      rw [hLength, show 8 + 8 * fuel = 8 * (fuel + 1) by ring] at hScan
      rw [probeLoop, hScan]
      cases scanBucket stop update
          (bucketSlots ((pos + 8 * Triangular.offset b) % slotCount)) acc with
      | inl found => rfl
      | inr acc =>
          dsimp only
          rw [hCount, Nat.and_two_pow_sub_one_eq_mod, ← hCount, Nat.mod_add_mod, Nat.add_assoc,
            ← Nat.mul_add, ← Triangular.offset_succ]
          exact ih (b + 1) acc

section Sequence

variable {slotCount k : Nat} (hCount : slotCount = 2 ^ (k + 3))
include hCount

/-- A probe stays inside the table. -/
theorem slotSeq_lt (pos j : Nat) : slotSeq slotCount pos j < slotCount := by
  have hEight : slotCount = 8 * 2 ^ k := by
    rw [hCount, pow_add]
    ring
  have hPos : 0 < 2 ^ k := Nat.two_pow_pos k
  have hMod := Nat.mod_lt (pos + 8 * Triangular.offset (j / 8)) (show 0 < slotCount by omega)
  simp only [slotSeq]
  omega

/-- A probe from any position reaches every slot. -/
theorem exists_slotSeq (pos : Nat) {slot : Nat} (hSlot : slot < slotCount) :
    ∃ j, slotSeq slotCount pos j = slot := by
  have hEight : slotCount = 8 * 2 ^ k := by
    rw [hCount, pow_add]
    ring
  have hBucket : slot / 8 < 2 ^ k := by omega
  obtain ⟨b, _, hb⟩ := Triangular.exists_offset (pos / 8) (slot / 8) hBucket
  refine ⟨8 * b + (slot % 8 + 8 - pos % 8) % 8, ?_⟩
  have hDiv : (8 * b + (slot % 8 + 8 - pos % 8) % 8) / 8 = b := by omega
  have hMod : (pos + 8 * Triangular.offset b) % slotCount = pos % 8 + 8 * (slot / 8) := by
    rw [hEight, Nat.mod_mul, ← hb, Nat.add_mul_mod_self_left,
      Nat.add_mul_div_left _ _ (by decide)]
  simp only [slotSeq, hDiv, hMod]
  omega

end Sequence

end HashBench.StbDs
