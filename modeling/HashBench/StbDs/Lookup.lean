import HashBench.StbDs.Table

/-! Probing the index of an stb_ds table for a key: what a probe that returned
has found, and what the writes of the library do to the references stored. -/
namespace HashBench.StbDs

open Search OpenAddressing Iteration

variable {K V β : Type*}

variable (keys : KeyAccess K β)

/-- The reference that the slot of pair `i` stores. -/
def refAt (seed : Nat) (data : Nat → Element K V) (i : Nat) : Ref :=
  ⟨hashFor keys seed (data i).key, i⟩

/-- One reference for each of the first `m` pairs. -/
def refs (seed : Nat) (data : Nat → Element K V) (m : Nat) : Multiset Ref :=
  (Multiset.range m).map (refAt keys seed data)

/-- Every reference stores the hash of the key it refers to. -/
def Faithful (seed : Nat) (data : Nat → Element K V) (refs : Multiset Ref) : Prop :=
  ∀ ref ∈ refs, ref.hash = hashFor keys seed (data ref.index).key

variable {keys} {data data' : Nat → Element K V} {seed m : Nat}

theorem mem_refs {ref : Ref} :
    ref ∈ refs keys seed data m ↔ ref.index < m ∧ ref = refAt keys seed data ref.index := by
  simp only [refs, Multiset.mem_map, Multiset.mem_range]
  constructor
  · rintro ⟨i, hi, rfl⟩
    exact ⟨hi, rfl⟩
  · rintro ⟨hi, hEq⟩
    exact ⟨ref.index, hi, hEq.symm⟩

theorem faithful_refs : Faithful keys seed data (refs keys seed data m) := by
  intro ref hRef
  obtain ⟨_, hEq⟩ := mem_refs.mp hRef
  rw [hEq]
  rfl

theorem card_refs : (refs keys seed data m).card = m := by
  simp [refs]

theorem hashFor_congr {key key' : K} (h : keys.content key = keys.content key') :
    hashFor keys seed key = hashFor keys seed key' := by
  rw [hashFor, hashFor, h]

/-- References depend on the contents of the keys only. -/
theorem refs_congr
    (h : ∀ i < m, keys.content (data' i).key = keys.content (data i).key) :
    refs keys seed data' m = refs keys seed data m := by
  refine Multiset.map_congr rfl fun i hi => ?_
  rw [refAt, refAt, hashFor_congr (h i (Multiset.mem_range.mp hi))]

/-- A pair written past the end adds its reference. -/
theorem refs_succ (hSame : ∀ i < m, data' i = data i) :
    refs keys seed data' (m + 1) = refAt keys seed data' m ::ₘ refs keys seed data m := by
  have hOld : refs keys seed data' m = refs keys seed data m :=
    refs_congr fun i hi => by rw [hSame i hi]
  rw [refs, Multiset.range_succ, Multiset.map_cons, ← hOld]
  rfl

/-- Removing one value of a range by moving the last one into its place. -/
theorem map_range_swap {α : Type*} (f f' : Nat → α) {i m : Nat} (hi : i < m)
    (hSame : ∀ j < m, j ≠ i → f' j = f j) :
    ∃ rest, (Multiset.range (m + 1)).map f = f i ::ₘ f m ::ₘ rest ∧
      (Multiset.range m).map f' = f' i ::ₘ rest ∧ ∀ x ∈ rest, ∃ j < m, j ≠ i ∧ x = f j := by
  have hRange : Multiset.range m = i ::ₘ (Multiset.range m).erase i :=
    (Multiset.cons_erase (Multiset.mem_range.mpr hi)).symm
  have hMem {j : Nat} (hj : j ∈ (Multiset.range m).erase i) : j < m ∧ j ≠ i := by
    obtain ⟨hNe, hIn⟩ := (Multiset.nodup_range m).mem_erase_iff.mp hj
    exact ⟨Multiset.mem_range.mp hIn, hNe⟩
  refine ⟨((Multiset.range m).erase i).map f, ?_, ?_, fun x hx => ?_⟩
  · rw [Multiset.range_succ, Multiset.map_cons, Multiset.cons_swap]
    congr 1
    rw [← Multiset.map_cons, ← hRange]
  · rw [hRange, Multiset.map_cons, Multiset.erase_cons_head]
    congr 1
    exact Multiset.map_congr rfl fun j hj => hSame j (hMem hj).1 (hMem hj).2
  · obtain ⟨j, hj, rfl⟩ := Multiset.mem_map.mp hx
    exact ⟨j, (hMem hj).1, (hMem hj).2, rfl⟩

theorem map_range_remove {α : Type*} (f : Nat → α) {i m : Nat} (hi : i < m + 1) :
    (Multiset.range (m + 1)).map f =
      f i ::ₘ (Multiset.range m).map (Function.update f i (f m)) := by
  rcases Nat.lt_succ_iff_lt_or_eq.mp hi with hLt | rfl
  · obtain ⟨rest, hAll, hKept, _⟩ := map_range_swap f (Function.update f i (f m)) hLt
      (fun j _ hj => Function.update_of_ne hj ..)
    rw [hAll, hKept, Function.update_self]
  · rw [Function.update_eq_self, Multiset.range_succ, Multiset.map_cons]

section Lookup

variable [DecidableEq β] {table : HashIndex} {stored : Multiset Ref}

/-- A reference that a probe for `key` accepts. -/
def accepts (keys : KeyAccess K β) (data : Nat → Element K V) (table : HashIndex) (key : K)
    (ref : Ref) : Bool :=
  decide (ref.hash = hashFor keys table.seed key) &&
    stbdsIsKeyEqual keys data key (ref.index : Int)

theorem accepts_iff {key : K} {ref : Ref} :
    accepts keys data table key ref = true ↔
      ref.hash = hashFor keys table.seed key ∧
        keys.content key = keys.content (data ref.index).key := by
  simp [accepts, stbdsIsKeyEqual]

/-- The test of the code is the stopping test of an open-addressing lookup. -/
theorem slotStops_eq (key : K) (slot : Nat) :
    slotStops keys data table key slot =
      (table.storage slot).stops (accepts keys data table key) := by
  have hHash := (hashFor keys table.seed key).2
  unfold slotStops
  cases table.storage slot with
  | empty =>
      have hNe : slotHash .empty ≠ hashFor keys table.seed key := by
        simp only [slotHash]
        omega
      rw [if_neg hNe]
      rfl
  | deleted =>
      have hNe : slotHash .deleted ≠ hashFor keys table.seed key := by
        simp only [slotHash]
        omega
      rw [if_neg hNe]
      rfl
  | live ref =>
      by_cases hEq : ref.hash = hashFor keys table.seed key
      · rw [if_pos (slotHash_live_eq_iff.mpr hEq), Slot.stops_live, accepts,
          decide_eq_true hEq, Bool.true_and]
        rfl
      · have hStored : slotHash (.live ref) ≠ 0 := by
          have hTwo := ref.hash.2
          simp only [slotHash]
          omega
        rw [if_neg (fun hVal => hEq (slotHash_live_eq_iff.mp hVal)), Slot.stops_live, accepts,
          decide_eq_false hEq, Bool.false_and]
        exact beq_false_of_ne hStored

/-- The slots that a probe for `key` inspects. -/
def keySeq (keys : KeyAccess K β) (table : HashIndex) (key : K) : Nat → Nat :=
  slotSeq table.slotCount (stbdsProbePosition (hashFor keys table.seed key) table.slotCount)

omit [DecidableEq β] in
theorem keySeq_lt (keys : KeyAccess K β) (h : IndexOk table stored) (key : K) (j : Nat) :
    keySeq keys table key j < table.slotCount := by
  obtain ⟨k, hCount⟩ := h.size
  exact slotSeq_lt hCount _ j

theorem probeLoop_eq_search {σ : Type*} (h : IndexOk table stored) (update : Nat → σ → σ)
    (fuel : Nat) (key : K) (acc : σ) :
    probeLoop (slotStops keys data table key) update table.slotCount fuel
        (stbdsProbePosition (hashFor keys table.seed key) table.slotCount) bucketLength acc =
      (search (slotStops keys data table key) update (keySeq keys table key) (8 * fuel) 0 acc).map
        fun found => (keySeq keys table key found.1, found.2) := by
  obtain ⟨k, hCount⟩ := h.size
  exact probeLoop_eq _ _ hCount (stbdsProbePosition_lt hCount _) fuel acc

/-- A probe that returned stopped at the slot of its key, or at an empty slot
of a table that does not store the key. -/
theorem probe_returned {σ : Type*} (h : IndexOk table stored)
    (hFaithful : Faithful keys table.seed data stored) {update : Nat → σ → σ} {fuel slot : Nat}
    {key : K} {acc result : σ}
    (hProbe : probeLoop (slotStops keys data table key) update table.slotCount fuel
      (stbdsProbePosition (hashFor keys table.seed key) table.slotCount) bucketLength acc =
        some (slot, result)) :
    ∃ j, slot = keySeq keys table key j ∧
      (∀ i < j, table.storage (keySeq keys table key i) ≠ .empty) ∧
      result = trail update (keySeq keys table key) j acc ∧
      ((∃ ref ∈ stored, table.storage slot = .live ref ∧
          ref.hash = hashFor keys table.seed key ∧
          keys.content key = keys.content (data ref.index).key) ∨
        (table.storage slot = .empty ∧
          ∀ ref ∈ stored, keys.content key ≠ keys.content (data ref.index).key)) := by
  rw [probeLoop_eq_search h, Option.map_eq_some_iff] at hProbe
  obtain ⟨⟨j, acc'⟩, hSearch, hEq⟩ := hProbe
  obtain ⟨rfl, rfl⟩ := Prod.mk.inj hEq
  obtain ⟨_, hBefore, hStop, hTrail⟩ := search_eq_some hSearch
  simp only [slotStops_eq] at hBefore hStop
  refine ⟨j, rfl, fun i hi => ne_empty_of_stops_eq_false (hBefore i hi), hTrail, ?_⟩
  dsimp only at hStop ⊢
  cases hSlot : table.storage (keySeq keys table key j) with
  | empty =>
      refine Or.inr ⟨rfl, fun ref hRef hContent => ?_⟩
      have hHash : ref.hash = hashFor keys table.seed key := by
        rw [hFaithful ref hRef, hashFor, hashFor, hContent]
      rw [← h.contents_eq] at hRef
      obtain ⟨p, hp, hLive⟩ := mem_contents.mp hRef
      have hMiss := h.probed.lookup_sound hBefore hSlot hp hLive
        (by rw [refSeq, hHash]; rfl)
      rw [accepts_iff.mpr ⟨hHash, hContent⟩] at hMiss
      cases hMiss
  | deleted => simp [hSlot] at hStop
  | live ref =>
      rw [hSlot, Slot.stops_live, accepts_iff] at hStop
      refine Or.inl ⟨ref, ?_, rfl, hStop⟩
      rw [← h.contents_eq]
      exact mem_contents.mpr ⟨_, keySeq_lt keys h key j, hSlot⟩

/-- A probe returns when the table has an empty slot. -/
theorem probe_returns {σ : Type*} (keys : KeyAccess K β) (data : Nat → Element K V)
    (h : IndexOk table stored) (hEmpty : ∃ p < table.slotCount, table.storage p = .empty)
    (update : Nat → σ → σ) (key : K) (acc : σ) :
    ∃ found, ReturnsTo (fun fuel =>
      probeLoop (slotStops keys data table key) update table.slotCount fuel
        (stbdsProbePosition (hashFor keys table.seed key) table.slotCount) bucketLength acc)
      found := by
  obtain ⟨k, hCount⟩ := h.size
  obtain ⟨p, hp, hSlot⟩ := hEmpty
  obtain ⟨j, hj⟩ := exists_slotSeq hCount
    (stbdsProbePosition (hashFor keys table.seed key) table.slotCount) hp
  have hStop : ∃ j, slotStops keys data table key (keySeq keys table key j) = true :=
    ⟨j, by rw [slotStops_eq, keySeq, hj, hSlot, Slot.stops_empty]⟩
  obtain ⟨found, hFound⟩ := search_returns _ _ hStop update acc
  simp only [probeLoop_eq_search h]
  exact ⟨_, (hFound.scale (by decide)).map _⟩

/-- `stbds_hm_find_slot` returns the slot of its key, or `-1` for a key that is
not stored. -/
theorem findSlot_returned (h : IndexOk table stored)
    (hFaithful : Faithful keys table.seed data stored) {fuel : Nat} {key : K} {slot : Int}
    (hFind : stbdsHmFindSlot keys fuel data table key = some slot) :
    (∃ (p : Nat) (ref : Ref), slot = p ∧ p < table.slotCount ∧ ref ∈ stored ∧
        table.storage p = .live ref ∧ keys.content key = keys.content (data ref.index).key) ∨
      (slot = -1 ∧ ∀ ref ∈ stored, keys.content key ≠ keys.content (data ref.index).key) := by
  simp only [stbdsHmFindSlot, Option.map_eq_some_iff] at hFind
  obtain ⟨⟨p, acc⟩, hProbe, rfl⟩ := hFind
  obtain ⟨j, rfl, _, _, ⟨ref, hRef, hSlot, hHash, hContent⟩ | ⟨hSlot, hMiss⟩⟩ :=
    probe_returned h hFaithful hProbe
  · refine Or.inl ⟨_, ref, ?_, keySeq_lt keys h key j, hRef, hSlot, hContent⟩
    simp [hSlot, slotHash, hHash]
  · have hHash := (hashFor keys table.seed key).2
    refine Or.inr ⟨?_, hMiss⟩
    rw [hSlot, slotHash, if_neg (by omega)]

end Lookup

namespace IndexOk

variable {table : HashIndex} {stored : Multiset Ref}

/-- A reference written where its probe noted a tombstone, or else where it
met an empty slot, is stored. -/
theorem claim (h : IndexOk table stored) {key : K} (index : Nat) {j : Nat}
    {tombstone : Option Nat}
    (hBefore : ∀ i < j, table.storage (keySeq keys table key i) ≠ .empty)
    (hEmpty : table.storage (keySeq keys table key j) = .empty)
    (hTombstone : tombstone =
      trail (noteFirst (isTombstone keys table key)) (keySeq keys table key) j none) :
    IndexOk (claimSlot table ⟨hashFor keys table.seed key, index⟩ (keySeq keys table key j)
      tombstone) (⟨hashFor keys table.seed key, index⟩ ::ₘ stored) := by
  have hSeq : refSeq table.slotCount ⟨hashFor keys table.seed key, index⟩ =
      keySeq keys table key := rfl
  cases tombstone with
  | none =>
      have hBound := keySeq_lt keys h key j
      have hReach : Reach table.storage (refSeq table.slotCount
          ⟨hashFor keys table.seed key, index⟩) (keySeq keys table key j) :=
        ⟨j, congrFun hSeq j, hSeq ▸ hBefore⟩
      have hGrave := total_update Slot.grave table.storage hBound
        (.live ⟨hashFor keys table.seed key, index⟩)
      rw [hEmpty, Slot.grave_empty, Slot.grave_live] at hGrave
      refine ⟨h.size, h.usedCountThreshold_eq, h.tombstoneCountThreshold_eq,
        h.usedCountShrinkThreshold_eq, h.probed.insert hReach, ?_, ?_, ?_⟩
      · exact h.contents_eq ▸ contents_update_live hBound (by rw [hEmpty]; rfl) _
      · simp [claimSlot, h.usedCount_eq]
      · exact h.tombstoneCount_eq.trans hGrave.symm
  | some pos =>
      obtain ⟨i, hi, rfl, hMark, _⟩ := trail_noteFirst_eq_some _ hTombstone.symm
      have hBound := keySeq_lt keys h key i
      have hReach : Reach table.storage (refSeq table.slotCount
          ⟨hashFor keys table.seed key, index⟩) (keySeq keys table key i) :=
        ⟨i, congrFun hSeq i, fun i' hi' => hSeq ▸ hBefore i' (hi'.trans hi)⟩
      have hDeleted : table.storage (keySeq keys table key i) = .deleted := by
        cases hSlot : table.storage (keySeq keys table key i) with
        | empty => simp [isTombstone, hSlot, slotIndex] at hMark
        | deleted => rfl
        | live ref =>
            simp only [isTombstone, hSlot, slotIndex, Bool.and_eq_true, beq_iff_eq] at hMark
            omega
      have hGrave := total_update Slot.grave table.storage hBound
        (.live ⟨hashFor keys table.seed key, index⟩)
      rw [hDeleted, Slot.grave_deleted, Slot.grave_live] at hGrave
      refine ⟨h.size, h.usedCountThreshold_eq, h.tombstoneCountThreshold_eq,
        h.usedCountShrinkThreshold_eq, h.probed.insert hReach, ?_, ?_, ?_⟩
      · exact h.contents_eq ▸ contents_update_live hBound (by rw [hDeleted]; rfl) _
      · simp [claimSlot, h.usedCount_eq]
      · rw [← h.tombstoneCount_eq] at hGrave
        exact Nat.sub_eq_of_eq_add hGrave.symm

/-- Marking a slot in use as deleted takes its reference out. -/
theorem bury {ref : Ref} (h : IndexOk table (ref ::ₘ stored)) {p : Nat}
    (hp : p < table.slotCount) (hSlot : table.storage p = .live ref) :
    IndexOk (burySlot table p) stored := by
  have hGrave := total_update Slot.grave table.storage hp .deleted
  rw [hSlot, Slot.grave_live, Slot.grave_deleted, Nat.add_zero] at hGrave
  refine ⟨h.size, h.usedCountThreshold_eq, h.tombstoneCountThreshold_eq,
    h.usedCountShrinkThreshold_eq, h.probed.delete p, ?_, ?_, ?_⟩
  · have hContents := contents_update_cleared hp hSlot (s := .deleted) rfl
    rw [h.contents_eq] at hContents
    exact (Multiset.cons_inj_right ref).mp hContents
  · simp [burySlot, h.usedCount_eq]
  · show table.tombstoneCount + 1 = _
    rw [h.tombstoneCount_eq, ← hGrave]
    rfl

/-- Redirecting a slot in use changes the index of its reference. -/
theorem redirect {ref : Ref} (h : IndexOk table (ref ::ₘ stored)) {p : Nat}
    (hp : p < table.slotCount) (hSlot : table.storage p = .live ref) (index : Nat) :
    IndexOk (redirectSlot table p index) ({ ref with index := index } ::ₘ stored) := by
  have hEq : redirectSlot table p index = { table with
      storage := Function.update table.storage p (.live { ref with index := index }) } := by
    rw [redirectSlot, hSlot]
  have hGrave := total_update Slot.grave table.storage hp (.live { ref with index := index })
  rw [hSlot, Slot.grave_live, Slot.grave_live, Nat.add_zero, Nat.add_zero] at hGrave
  rw [hEq]
  refine ⟨h.size, h.usedCountThreshold_eq, h.tombstoneCountThreshold_eq,
    h.usedCountShrinkThreshold_eq, h.probed.insert (h.probed p hp ref hSlot), ?_, ?_, ?_⟩
  · have hContents := contents_update_swap hp hSlot { ref with index := index }
    rw [h.contents_eq, Multiset.cons_swap] at hContents
    exact (Multiset.cons_inj_right ref).mp hContents
  · simpa using h.usedCount_eq
  · exact h.tombstoneCount_eq.trans hGrave.symm

end IndexOk

end HashBench.StbDs
