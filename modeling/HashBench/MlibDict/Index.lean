import HashBench.MlibDict.Dict
import HashBench.Library.Counted

/-! The index of a dictionary as an open-addressing table. Within the bounds of
the index its loops are the library's placements and sweeps, so that a resize
keeps the entries. -/
namespace HashBench.MlibDict

open Search Triangular OpenAddressing Memory

/-- What the number in a slot says of it. -/
def slotOf (s : IndexHash) : Slot IndexHash :=
  if s.index = 0 then .empty else if s.index = 1 then .deleted else .live s

/-- The slots of an index. -/
def slots (index : Buffer IndexHash) (p : Nat) : Slot IndexHash := slotOf (index.cell p)

/-- The slots that the probe for an entry inspects. -/
def slotSeq (mask : Nat) (s : IndexHash) : Nat → Nat := probe mask s.hash

section Slots

variable {s : IndexHash}

theorem slotOf_live (h : 2 ≤ s.index) : slotOf s = .live s := by
  rw [slotOf, if_neg (by omega), if_neg (by omega)]

theorem slotOf_entries_eq_zero (h : s.index ≤ 1) : (slotOf s).entries = 0 := by
  unfold slotOf
  split_ifs
  · rfl
  · rfl
  · omega

theorem slotOf_eq_live_iff {e : IndexHash} : slotOf s = .live e ↔ s = e ∧ 2 ≤ s.index := by
  unfold slotOf
  split_ifs with hZero hOne
  · simp [hZero]
  · simp [hOne]
  · rw [Slot.live.injEq]
    exact ⟨fun hEq => ⟨hEq, by omega⟩, And.left⟩

theorem slotOf_isEmpty : (slotOf s).isEmpty = (s.index == 0) := by
  unfold slotOf
  split_ifs with hZero hOne <;> simp [*]

theorem slotOf_isDeleted : (slotOf s).isDeleted = (s.index == 1) := by
  unfold slotOf
  split_ifs with hZero hOne <;> simp [*]

theorem slotOf_isLive : (slotOf s).isLive = decide (1 < s.index) := by
  unfold slotOf
  split_ifs with hZero hOne
  · simp [hZero]
  · simp [hOne]
  · rw [Slot.isLive_live, eq_comm, decide_eq_true_iff]
    omega

theorem slots_set (b : Buffer IndexHash) (p : Nat) (s : IndexHash) :
    slots (b.set p s) = Function.update (slots b) p (slotOf s) := by
  funext q
  by_cases hq : q = p
  · subst hq
    simp [slots, Buffer.set]
  · simp [slots, Buffer.set, hq]

end Slots

section Sweep

variable (mask : Nat) {i : Nat} (index : Buffer IndexHash)

/-- One round of the sweep stays in the index and is a step of the library's. -/
theorem sweepAt_eq (tmp : List IndexHash) (hi : i < index.size) (hMask : mask < index.size) :
    ∃ index' tmp', sweepAt mask i (index, tmp) = .ok (index', tmp') ∧ index'.size = index.size ∧
      (slots index', tmp') = sweepStep (fun s => s.hash &&& mask) i (slots index, tmp) := by
  have hHome : (index.cell i).hash &&& mask < index.size := Nat.and_le_right.trans_lt hMask
  have hCleared : slotOf { index.cell i with index := 0 } = .empty := rfl
  simp only [sweepAt, Buffer.read_of_lt _ hi, Buffer.write_of_lt _ hi]
  by_cases hLive : 2 ≤ (index.cell i).index
  · have hSlot : slots index i = .live (index.cell i) := slotOf_live hLive
    let cleared := index.set i { index.cell i with index := 0 }
    have hSlots : slots cleared = Function.update (slots index) i .empty := slots_set ..
    have hRead : cleared.read Fault.indexBounds ((index.cell i).hash &&& mask) =
        .ok (cleared.cell ((index.cell i).hash &&& mask)) := Buffer.read_of_lt _ hHome
    by_cases hFree : (cleared.cell ((index.cell i).hash &&& mask)).index ≤ 1
    · refine ⟨cleared.set ((index.cell i).hash &&& mask) (index.cell i), tmp, ?_, rfl, ?_⟩
      · have hWrite : cleared.write Fault.indexBounds ((index.cell i).hash &&& mask) (index.cell i) =
            .ok (cleared.set ((index.cell i).hash &&& mask) (index.cell i)) :=
          Buffer.write_of_lt _ (show _ < cleared.size from hHome) _
        simp only [bind, Except.bind, if_pos hLive]
        rw [hRead]
        simp only [if_pos hFree]
        rw [hWrite]
        rfl
      · rw [slots_set, hSlots, slotOf_live hLive]
        refine (sweepStep_home (fun s => s.hash &&& mask) tmp hSlot ?_).symm
        rw [← hSlots]
        exact slotOf_entries_eq_zero hFree
    · refine ⟨cleared, index.cell i :: tmp, ?_, rfl, ?_⟩
      · simp only [bind, Except.bind, if_pos hLive]
        rw [hRead]
        simp only [if_neg hFree]
        rfl
      · rw [hSlots]
        have hTaken : slots cleared ((index.cell i).hash &&& mask) = .live _ :=
          slotOf_live (by omega)
        rw [hSlots] at hTaken
        exact (sweepStep_taken (fun s => s.hash &&& mask) tmp hSlot hTaken).symm
  · refine ⟨index.set i { index.cell i with index := 0 }, tmp, ?_, rfl, ?_⟩
    · simp only [bind, Except.bind, if_neg hLive]
      rfl
    · rw [slots_set, hCleared]
      exact (sweepStep_free _ tmp (slotOf_entries_eq_zero (by omega))).symm

theorem sweepSlots_eq {count : Nat} (hCount : count ≤ index.size) (hMask : mask < index.size) :
    ∃ index' tmp', sweepSlots mask index count = .ok (index', tmp') ∧
      index'.size = index.size ∧
      (slots index', tmp') = sweep (fun s => s.hash &&& mask) (slots index) count := by
  induction count with
  | zero => exact ⟨index, [], rfl, rfl, rfl⟩
  | succ count ih =>
      obtain ⟨before, tmp, hRun, hSize, hEq⟩ := ih (by omega)
      obtain ⟨index', tmp', hStep, hSize', hEq'⟩ :=
        sweepAt_eq mask before tmp (show count < before.size by omega) (by omega)
      refine ⟨index', tmp', ?_, hSize'.trans hSize, ?_⟩
      · rw [sweepSlots, hRun]
        exact hStep
      · rw [hEq', hEq]
        rfl

end Sweep

section Place

variable {mask k : Nat} {slot : IndexHash} {index : Buffer IndexHash}

/-- The loop that puts an entry back is a placement. -/
theorem putBack_sim (hIn : ∀ j, probe mask slot.hash j < index.size) (hLive : 2 ≤ slot.index)
    {fuel : Nat} {slots' : Nat → Slot IndexHash}
    (hPlace : place (slotSeq mask) fuel slot (slots index) = some slots') :
    ∃ index', (putBack mask fuel slot index).run = some (.ok index') ∧ slots index' = slots' ∧
      index'.size = index.size ∧ ∀ p, (∀ j, p ≠ probe mask slot.hash j) →
        index'.cell p = index.cell p := by
  simp only [place, Option.map_eq_some_iff] at hPlace
  obtain ⟨⟨j, acc⟩, hSearch, rfl⟩ := hPlace
  obtain ⟨hFuel, hBefore, hAt, rfl⟩ := search_eq_some hSearch
  refine ⟨index.set (probe mask slot.hash j) slot, ?_, ?_, rfl, fun p hp => ?_⟩
  · simp only [putBack, ExceptT.run_mk]
    rw [search_first (fun i hi => ?_) ?_ _ _ hFuel]
    · simp only [Option.map_some, Buffer.write_of_lt _ (hIn j)]
    · rw [Buffer.read_of_lt _ (hIn j)]
      exact slotOf_isEmpty.symm.trans hAt
    · rw [Buffer.read_of_lt _ (hIn i)]
      exact slotOf_isEmpty.symm.trans (hBefore i hi)
  · rw [slots_set, slotOf_live hLive]
    rfl
  · exact Function.update_of_ne (hp j) ..

theorem steady_putBack (mask : Nat) (slot : IndexHash) (index : Buffer IndexHash) :
    Steady fun fuel => (putBack mask fuel slot index).run :=
  Steady.map (steady_search _ _ _ _) _

theorem putBackAll_sim {tmp : List IndexHash} (hIn : ∀ s ∈ tmp, ∀ j, probe mask s.hash j < index.size)
    (hLive : ∀ s ∈ tmp, 2 ≤ s.index) {fuel : Nat} {slots' : Nat → Slot IndexHash}
    (hPlace : placeAll (slotSeq mask) fuel tmp (slots index) = some slots') :
    ∃ index', (putBackAll mask fuel tmp index).run = some (.ok index') ∧ slots index' = slots' ∧
      index'.size = index.size := by
  induction tmp generalizing index with
  | nil => exact ⟨index, rfl, Option.some.inj hPlace, rfl⟩
  | cons s tmp ih =>
      obtain ⟨next, hFirst, hRest⟩ := Option.bind_eq_some_iff.mp hPlace
      obtain ⟨index₁, hRun, rfl, hSize, _⟩ :=
        putBack_sim (hIn s List.mem_cons_self) (hLive s List.mem_cons_self) hFirst
      obtain ⟨index', hRun', hSlots, hSize'⟩ := ih
        (fun s' hs' j => hSize ▸ hIn s' (List.mem_cons_of_mem s hs') j)
        (fun s' hs' => hLive s' (List.mem_cons_of_mem s hs')) hRest
      refine ⟨index', ?_, hSlots, hSize'.trans hSize⟩
      rw [putBackAll, ExceptT.run_bind, hRun]
      exact hRun'

theorem steady_putBackAll (mask : Nat) (tmp : List IndexHash) (index : Buffer IndexHash) :
    Steady fun fuel => (putBackAll mask fuel tmp index).run := by
  induction tmp generalizing index with
  | nil => exact Steady.pure _
  | cons s tmp ih => exact (steady_putBack mask s index).andThen fun next => ih next

/-- The loop over the upper slots places the entries it meets there. -/
theorem moveUpper_sim {start count : Nat} (hIn : start + count ≤ index.size)
    (hBelow : ∀ s : IndexHash, ∀ j, probe mask s.hash j < start) {fuel : Nat}
    {slots' : Nat → Slot IndexHash}
    (hPlace : placeAll (slotSeq mask) fuel (liveList (fun i => slots index (start + i)) count)
      (slots index) = some slots') :
    ∃ index', (moveUpper mask fuel (List.range' start count) index).run = some (.ok index') ∧
      slots index' = slots' ∧ index'.size = index.size := by
  induction count generalizing index start with
  | zero => exact ⟨index, rfl, Option.some.inj hPlace, rfl⟩
  | succ count ih =>
      have hRead : index.read Fault.indexBounds start = .ok (index.cell start) :=
        Buffer.read_of_lt _ (by omega)
      have hShift : (fun i => slots index (start + (i + 1))) =
          fun i => slots index (start + 1 + i) := by
        funext i
        rw [Nat.add_right_comm, Nat.add_assoc]
      rw [liveList_succ_left, hShift] at hPlace
      rw [List.range'_succ, moveUpper, hRead]
      by_cases hLive : 2 ≤ (index.cell start).index
      · have hSlot : slots index (start + 0) = .live (index.cell start) := slotOf_live hLive
        rw [hSlot] at hPlace
        obtain ⟨next, hFirst, hRest⟩ := Option.bind_eq_some_iff.mp hPlace
        obtain ⟨index₁, hRun, rfl, hSize, hSame⟩ :=
          putBack_sim (fun j => (hBelow _ j).trans (by omega)) hLive hFirst
        have hUpper (i : Nat) : slots index₁ (start + 1 + i) = slots index (start + 1 + i) := by
          rw [slots, hSame _ fun j hEq => ?_]
          · rfl
          · have := hBelow (index.cell start) j
            omega
        simp only [← hUpper] at hRest
        obtain ⟨index', hRun', hSlots, hSize'⟩ := ih (by omega)
          (fun s j => (hBelow s j).trans (Nat.lt_succ_self start)) hRest
        refine ⟨index', ?_, hSlots, hSize'.trans hSize⟩
        show (if 2 ≤ (index.cell start).index then _ else _ : Exec _).run = _
        rw [if_pos hLive, ExceptT.run_bind, hRun]
        exact hRun'
      · have hRest : placeAll (slotSeq mask) fuel
            (liveList (fun i => slots index (start + 1 + i)) count) (slots index) = some slots' := by
          cases hSlot : slots index (start + 0) with
          | empty => rwa [hSlot] at hPlace
          | deleted => rwa [hSlot] at hPlace
          | live e => exact absurd (slotOf_eq_live_iff.mp hSlot).2 hLive
        obtain ⟨index', hRun', hSlots, hSize'⟩ := ih (by omega)
          (fun s j => (hBelow s j).trans (Nat.lt_succ_self start)) hRest
        refine ⟨index', ?_, hSlots, hSize'⟩
        show (if 2 ≤ (index.cell start).index then _ else _ : Exec _).run = _
        rw [if_neg hLive]
        exact hRun'

theorem steady_moveUpper (mask : Nat) (upper : List Nat) (index : Buffer IndexHash) :
    Steady fun fuel => (moveUpper mask fuel upper index).run := by
  induction upper generalizing index with
  | nil => exact Steady.pure _
  | cons i upper ih =>
      refine Steady.andThen (Steady.pure _) fun slot => ?_
      by_cases hLive : 2 ≤ slot.index
      · simp only [if_pos hLive]
        exact (steady_putBack mask slot index).andThen fun next => ih next
      · simp only [if_neg hLive]
        exact ih index

end Place

section Resize

variable {K V : Type} {maxLoadFactor : ℚ} {h : Dict K V} {newSize a b : Nat}
  {stored : Multiset IndexHash}

theorem slotSeq_home (mask : Nat) (s : IndexHash) : slotSeq mask s 0 = s.hash &&& mask := rfl

theorem slotSeq_lt (hNew : newSize = 2 ^ b) (s : IndexHash) (j : Nat) :
    slotSeq (newSize - 1) s j < newSize := by
  have hLt := probe_lt (mask_succ hNew) s.hash j
  rwa [mask_succ hNew, ← hNew] at hLt

theorem exists_slotSeq (hNew : newSize = 2 ^ b) (s : IndexHash) (p : Nat) (hp : p < newSize) :
    ∃ j, slotSeq (newSize - 1) s j = p :=
  exists_probe (mask_succ hNew) s.hash (by rwa [mask_succ hNew, ← hNew])

theorem index_of_mem {n : Nat} {index : Buffer IndexHash} {s : IndexHash}
    (hMem : s ∈ contents (slots index) n) : 2 ≤ s.index := by
  obtain ⟨p, _, hLive⟩ := mem_contents.mp hMem
  obtain ⟨rfl, hTwo⟩ := slotOf_eq_live_iff.mp hLive
  exact hTwo

theorem slots_markEmpty (index : Buffer IndexHash) (oldSize newSize p : Nat) :
    slots (markEmpty index oldSize newSize) p =
      if oldSize ≤ p ∧ p < newSize then .empty else slots index p := by
  unfold slots markEmpty
  dsimp only
  split_ifs <;> rfl

@[simp] theorem updateLimit_index : (updateLimit maxLoadFactor h newSize).index = h.index := rfl
@[simp] theorem updateLimit_mask : (updateLimit maxLoadFactor h newSize).mask = h.mask := rfl
@[simp] theorem updateLimit_count : (updateLimit maxLoadFactor h newSize).count = h.count := rfl
@[simp] theorem extend_index :
    (extend h newSize).index = markEmpty (h.index.realloc newSize) (h.mask + 1) newSize := rfl
@[simp] theorem extend_count : (extend h newSize).count = h.count := rfl

theorem enlarge_index : (enlarge maxLoadFactor h newSize).index =
    if newSize > h.mask + 1 then markEmpty (h.index.realloc newSize) (h.mask + 1) newSize
    else h.index := by
  simp only [enlarge, apply_ite Dict.index, extend_index, updateLimit_index, updateLimit_mask]

theorem enlarge_count (maxLoadFactor : ℚ) (h : Dict K V) (newSize : Nat) :
    (enlarge maxLoadFactor h newSize).count = h.count := by
  simp only [enlarge, apply_ite Dict.count, extend_count, updateLimit_count, ite_self]

/-- A dictionary that grows keeps its slots, and the new ones are empty. -/
theorem enlarge_slots (maxLoadFactor : ℚ) (hSize : h.index.size = h.mask + 1)
    (hLe : h.mask + 1 ≤ newSize) :
    (enlarge maxLoadFactor h newSize).index.size = newSize ∧
      ∀ p < newSize, slots (enlarge maxLoadFactor h newSize).index p =
        if p < h.mask + 1 then slots h.index p else .empty := by
  rw [enlarge_index]
  by_cases hGrow : newSize > h.mask + 1
  · rw [if_pos hGrow]
    refine ⟨rfl, fun p hp => ?_⟩
    rw [slots_markEmpty]
    by_cases hOld : p < h.mask + 1
    · rw [if_neg fun hNew => Nat.not_lt_of_le hNew.1 hOld, if_pos hOld]
      rfl
    · rw [if_pos ⟨Nat.le_of_not_lt hOld, hp⟩, if_neg hOld]
  · rw [if_neg hGrow]
    exact ⟨hSize.trans (by omega), fun p hp => (if_pos (by omega)).symm⟩

/-- A resize up returns, within bounds, with the entries it was given. -/
theorem resizeUp_spec (maxLoadFactor : ℚ) (hSize : h.index.size = h.mask + 1) (hNew : newSize = 2 ^ b)
    (hLe : h.mask + 1 ≤ newSize) (hContents : contents (slots h.index) (h.mask + 1) = stored)
    (hRoom : stored.card ≤ newSize) :
    ∃ index', ReturnsTo (fun fuel => (resizeUp maxLoadFactor fuel h newSize).run)
        (.ok { enlarge maxLoadFactor h newSize with
          index := index', mask := newSize - 1, countDelete := h.count }) ∧
      index'.size = newSize ∧
      Counted (slotSeq (newSize - 1)) (slots index') newSize stored.card stored := by
  have hPos := Nat.two_pow_pos b
  obtain ⟨hSize', hSlots⟩ := enlarge_slots maxLoadFactor hSize hLe
  have hKept : contents (slots (enlarge maxLoadFactor h newSize).index) (h.mask + 1) = stored := by
    rw [← hContents]
    exact total_congr _ fun p hp => by rw [hSlots p (hp.trans_le hLe), if_pos hp]
  obtain ⟨swept, tmp, hSwept, hSweptSize, hEq⟩ := sweepSlots_eq
    (newSize - 1) (enlarge maxLoadFactor h newSize).index
    (show h.mask + 1 ≤ _ by omega) (by omega)
  obtain ⟨slots', hPlaced, hCounted⟩ := Counted.rebuild hKept (slotSeq_home (newSize - 1))
    (slotSeq_lt hNew) (exists_slotSeq hNew) hLe
    (fun p hp hp' => by rw [hSlots p hp', if_neg (Nat.not_lt_of_le hp)]) hRoom
  rw [← hEq] at hPlaced
  obtain ⟨fuel, hReturned⟩ := hPlaced.exists_fuel
  have hHome (s : IndexHash) : s.hash &&& (newSize - 1) < newSize := slotSeq_lt hNew s 0
  have hLive : ∀ s ∈ tmp, 2 ≤ s.index := fun s hs => by
    refine index_of_mem (mem_contents_of_aside (slots (enlarge maxLoadFactor h newSize).index)
      hHome hLe ?_)
    rw [← hEq]
    exact hs
  obtain ⟨index', hRun, rfl, hFinal⟩ := putBackAll_sim
    (fun s _ j => (slotSeq_lt hNew s j).trans_eq (hSweptSize.trans hSize').symm) hLive hReturned
  refine ⟨index', ?_, hFinal.trans (hSweptSize.trans hSize'), hCounted⟩
  have hBack := (steady_putBackAll (newSize - 1) tmp swept).returnsTo hRun
  rw [← enlarge_count maxLoadFactor h newSize]
  simp only [resizeUp, hSwept]
  exact hBack.andThen (ReturnsTo.pure _)

/-- A resize down returns, within bounds, with the entries it was given. -/
theorem resizeDown_spec (maxLoadFactor : ℚ) (hSize : h.index.size = h.mask + 1) (hNew : newSize = 2 ^ b)
    (hInitial : initialSize ≤ newSize) (hLess : newSize < h.mask + 1)
    (hContents : contents (slots h.index) (h.mask + 1) = stored) (hRoom : stored.card ≤ newSize) :
    ∃ index', ReturnsTo (fun fuel => (resizeDown maxLoadFactor fuel h newSize).run)
        (.ok { updateLimit maxLoadFactor h newSize with
          index := index', mask := newSize - 1, countDelete := h.count }) ∧
      index'.size = newSize ∧
      Counted (slotSeq (newSize - 1)) (slots index') newSize stored.card stored := by
  have hPos := Nat.two_pow_pos b
  obtain ⟨swept, tmp, hSwept, hSweptSize, hEq⟩ := sweepSlots_eq (newSize - 1) h.index
    (show newSize ≤ _ by omega) (by omega)
  obtain ⟨slots', hPlaced, hCounted⟩ := Counted.shrink hContents (slotSeq_home (newSize - 1))
    (slotSeq_lt hNew) (exists_slotSeq hNew) hLess.le hRoom
  have hHome (s : IndexHash) : s.hash &&& (newSize - 1) < newSize := slotSeq_lt hNew s 0
  have hUpper : (fun i => slots h.index (newSize + i)) = fun i => slots swept (newSize + i) := by
    funext i
    have hOutside := sweep_outside (slots h.index) hHome le_rfl
      (Nat.le_add_right newSize i)
    rw [← hEq] at hOutside
    exact hOutside.symm
  have hLive : ∀ s ∈ tmp, 2 ≤ s.index := fun s hs => by
    refine index_of_mem (mem_contents_of_aside (slots h.index) hHome le_rfl ?_)
    rw [← hEq]
    exact hs
  rw [← hEq, hUpper] at hPlaced
  obtain ⟨fuel, hReturned⟩ := hPlaced.exists_fuel
  rw [placeAll_append, Option.bind_eq_some_iff] at hReturned
  obtain ⟨mid, hFirst, hRest⟩ := hReturned
  obtain ⟨moved, hMoved, rfl, hMovedSize⟩ := moveUpper_sim
    (show newSize + (h.mask + 1 - newSize) ≤ swept.size by omega) (slotSeq_lt hNew) hFirst
  obtain ⟨index', hRun, rfl, hFinal⟩ := putBackAll_sim
    (fun s _ j => (slotSeq_lt hNew s j).trans (by omega)) hLive hRest
  refine ⟨index'.realloc newSize, ?_, rfl, hCounted⟩
  have hMove := (steady_moveUpper (newSize - 1) _ swept).returnsTo hMoved
  have hBack := (steady_putBackAll (newSize - 1) tmp moved).returnsTo hRun
  simp only [resizeDown, if_neg (Nat.not_lt_of_le hInitial), hSwept, ne_eq, hLess.ne, not_false_eq_true,
    if_true]
  exact hMove.andThen (hBack.andThen (ReturnsTo.pure _))

end Resize

end HashBench.MlibDict
