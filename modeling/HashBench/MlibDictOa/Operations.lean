import HashBench.MlibDictOa.Table
import HashBench.Library.LoadFactor

/-! The operations of an open-addressing dictionary under its invariant. Keys
that the reserved keys compare equal to are excluded: they have no place in it. -/
namespace HashBench.MlibDictOa

open Search Triangular OpenAddressing

variable {K V : Type} {maxLoadFactor : ℚ} {oor : Oor K} {bp : Blueprint K V}

section Resize

variable {dict : Dict K V} {stored : Multiset (Pair K V)} {newSize b : Nat}

theorem slotSeq_lt (bp : Blueprint K V) (hNew : newSize = 2 ^ b) (s : Pair K V) (j : Nat) :
    slotSeq bp (newSize - 1) s j < newSize := by
  have hLt := probe_lt (mask_succ hNew) (bp.hashKey s.key) j
  rwa [mask_succ hNew, ← hNew] at hLt

theorem exists_slotSeq (bp : Blueprint K V) (hNew : newSize = 2 ^ b) (s : Pair K V) (p : Nat)
    (hp : p < newSize) : ∃ j, slotSeq bp (newSize - 1) s j = p :=
  exists_probe (mask_succ hNew) (bp.hashKey s.key) (by rwa [mask_succ hNew, ← hNew])

theorem slots_markEmpty (h : oor.Lawful) (data : Nat → Pair K V) (oldSize newSize p : Nat) :
    slots oor (markEmpty oor data oldSize newSize) p =
      if oldSize ≤ p ∧ p < newSize then .empty else slots oor data p := by
  unfold slots markEmpty
  split_ifs
  · exact slotOf_mark_empty h _
  · rfl

/-- A placement that the library's returns from leaves such slots. -/
theorem putBackAll_returns (h : oor.Lawful) {mask : Nat} {tmp : List (Pair K V)}
    {data : Nat → Pair K V} (hKeys : ∀ s ∈ tmp, Regular oor bp s.key) {slots' : Nat → Slot (Pair K V)}
    (hPlaced : ReturnsTo (fun fuel => placeAll (slotSeq bp mask) fuel tmp (slots oor data)) slots') :
    ∃ data', ReturnsTo (fun fuel => putBackAll oor bp mask fuel tmp data) data' ∧
      slots oor data' = slots' := by
  obtain ⟨fuel, hFuel⟩ := hPlaced.exists_fuel
  rw [← putBackAll_eq h hKeys, Option.map_eq_some_iff] at hFuel
  obtain ⟨data', hPut, hSlots⟩ := hFuel
  exact ⟨data', (steady_putBackAll mask tmp data).returnsTo hPut, hSlots⟩

/-- A resize up keeps the pairs it was given. -/
theorem resizeUp_spec (maxLoadFactor : ℚ) (h : oor.Lawful) (hNew : newSize = 2 ^ b)
    (hLe : dict.mask + 1 ≤ newSize)
    (hContents : contents (slots oor dict.data) (dict.mask + 1) = stored)
    (hKeys : ∀ e ∈ stored, Regular oor bp e.key) (hRoom : stored.card ≤ newSize) :
    ∃ data', ReturnsTo (fun fuel => resizeUp maxLoadFactor oor bp fuel dict newSize)
        (updateLimit maxLoadFactor
          { dict with mask := newSize - 1, countDelete := dict.count, data := data' } newSize) ∧
      Counted (slotSeq bp (newSize - 1)) (slots oor data') newSize stored.card stored := by
  let data := if newSize > dict.mask + 1 then markEmpty oor dict.data (dict.mask + 1) newSize
    else dict.data
  have hSlots : ∀ p < newSize, slots oor data p =
      if p < dict.mask + 1 then slots oor dict.data p else .empty := fun p hp => by
    by_cases hGrow : newSize > dict.mask + 1
    · simp only [data, if_pos hGrow, slots_markEmpty h]
      split_ifs <;> first | rfl | omega
    · simp only [data, if_neg hGrow]
      rw [if_pos (by omega)]
  have hKept : contents (slots oor data) (dict.mask + 1) = stored := by
    rw [← hContents]
    exact total_congr _ fun p hp => by rw [hSlots p (hp.trans_le hLe), if_pos hp]
  have hEq := sweepSlots_eq (sweepUpAt_eq h bp (newSize - 1)) data (dict.mask + 1)
  obtain ⟨slots', hPlaced, hCounted⟩ := Counted.rebuild hKept (fun s => rfl)
    (slotSeq_lt bp hNew) (exists_slotSeq bp hNew) hLe
    (fun p hp hp' => by rw [hSlots p hp', if_neg (Nat.not_lt_of_le hp)]) hRoom
  have hHome (s : Pair K V) : slotSeq bp (newSize - 1) s 0 < newSize := slotSeq_lt bp hNew s 0
  have hExtended : contents (slots oor data) newSize = stored := by
    rw [← hKept]
    exact total_extend _ hLe fun p hp hp' => by
      rw [hSlots p hp', if_neg (Nat.not_lt_of_le hp)]
      rfl
  have hTmp : ∀ s ∈ (sweepSlots (sweepUpAt oor bp (newSize - 1)) data (dict.mask + 1)).2,
      Regular oor bp s.key := fun s hs => by
    refine hKeys s (hExtended ▸ mem_contents_of_aside _ hHome hLe ?_)
    rw [← hEq]
    exact hs
  rw [← hEq] at hPlaced
  obtain ⟨data', hPut, rfl⟩ := putBackAll_returns h hTmp hPlaced
  exact ⟨data', hPut.bind (ReturnsTo.pure _), hCounted⟩

/-- A resize down keeps the pairs it was given. -/
theorem resizeDown_spec (maxLoadFactor : ℚ) (h : oor.Lawful) (hNew : newSize = 2 ^ b)
    (hInitial : initialSize ≤ newSize) (hLess : newSize < dict.mask + 1)
    (hContents : contents (slots oor dict.data) (dict.mask + 1) = stored)
    (hKeys : ∀ e ∈ stored, Regular oor bp e.key) (hRoom : stored.card ≤ newSize) :
    ∃ data', ReturnsTo (fun fuel => resizeDown maxLoadFactor oor bp fuel dict newSize)
        (updateLimit maxLoadFactor
          { dict with mask := newSize - 1, countDelete := dict.count, data := data' } newSize) ∧
      Counted (slotSeq bp (newSize - 1)) (slots oor data') newSize stored.card stored := by
  have hEq := sweepSlots_eq (sweepDownAt_eq h bp (newSize - 1)) dict.data newSize
  obtain ⟨slots', hPlaced, hCounted⟩ := Counted.shrink hContents (fun s => rfl)
    (slotSeq_lt bp hNew) (exists_slotSeq bp hNew) hLess.le hRoom
  have hHome (s : Pair K V) : slotSeq bp (newSize - 1) s 0 < newSize := slotSeq_lt bp hNew s 0
  have hUpper (i : Nat) : slots oor
      (sweepSlots (sweepDownAt oor bp (newSize - 1)) dict.data newSize).1 (newSize + i) =
        slots oor dict.data (newSize + i) := by
    rw [← sweep_outside (slots oor dict.data) hHome le_rfl (Nat.le_add_right newSize i), ← hEq]
  have hTmp : ∀ s ∈ (sweepSlots (sweepDownAt oor bp (newSize - 1)) dict.data newSize).2,
      Regular oor bp s.key := fun s hs => by
    have hMem : s ∈ contents (slots oor dict.data) newSize := by
      refine mem_contents_of_aside _ hHome le_rfl ?_
      rw [← hEq]
      exact hs
    obtain ⟨p, hp, hLive⟩ := mem_contents.mp hMem
    exact hKeys s (hContents ▸ mem_contents.mpr ⟨p, hp.trans hLess, hLive⟩)
  have hTail : ∀ i < dict.mask + 1 - newSize, ∀ s,
      slots oor (sweepSlots (sweepDownAt oor bp (newSize - 1)) dict.data newSize).1 (newSize + i) =
        .live s → Regular oor bp s.key := fun i hi s hLive => by
    rw [hUpper] at hLive
    exact hKeys s (hContents ▸ mem_contents.mpr ⟨newSize + i, by omega, hLive⟩)
  simp only [← hUpper] at hPlaced
  rw [← hEq] at hPlaced
  obtain ⟨fuel, hFuel⟩ := hPlaced.exists_fuel
  rw [placeAll_append, Option.bind_eq_some_iff] at hFuel
  obtain ⟨mid, hFirst, hRest⟩ := hFuel
  rw [← moveUpper_eq h hTail (slotSeq_lt bp hNew), Option.map_eq_some_iff] at hFirst
  obtain ⟨moved, hMoved, rfl⟩ := hFirst
  rw [← putBackAll_eq h hTmp, Option.map_eq_some_iff] at hRest
  obtain ⟨data', hPut, rfl⟩ := hRest
  refine ⟨data', ?_, hCounted⟩
  have hMove := (steady_moveUpper (newSize - 1) _ _).returnsTo hMoved
  have hBack := (steady_putBackAll (newSize - 1) _ moved).returnsTo hPut
  simp only [resizeDown, if_neg (Nat.not_lt_of_le hInitial), ne_eq, hLess.ne, not_false_eq_true,
    if_true]
  exact hMove.bind (hBack.bind (ReturnsTo.pure _))

end Resize

/-- The invariant of a dictionary. It does not bound the count. -/
structure Sound (maxLoadFactor : ℚ) (oor : Oor K) (bp : Blueprint K V) (dict : Dict K V)
    (stored : Multiset (Pair K V)) (present : K → Bool) : Prop where
  size : ∃ k ≤ 59, dict.mask + 1 = 2 ^ (k + 4)
  counted : Counted (slotSeq bp dict.mask) (slots oor dict.data) (dict.mask + 1) dict.countDelete
    stored
  count_eq : dict.count = stored.card
  upperLimit_eq : dict.upperLimit = upperLimitOf maxLoadFactor (dict.mask + 1)
  lowerLimit_eq : dict.lowerLimit = lowerLimitOf (dict.mask + 1)
  regular : ∀ e ∈ stored, Regular oor bp e.key
  holds : bp.Holds (stored.map fun e => bp.cls e.key) present
  nodup : (stored.map fun e => bp.cls e.key).Nodup

theorem upperLimitOf_bounds {k : Nat} (hLow : 5 / 8 ≤ maxLoadFactor) (hHigh : maxLoadFactor < 1)
    (hk : k ≤ 59) : 2 ^ (k + 3) ≤ upperLimitOf maxLoadFactor (2 ^ (k + 4)) ∧
      upperLimitOf maxLoadFactor (2 ^ (k + 4)) + 2 ≤ 2 ^ (k + 4) := by
  have hAbove := LoadFactor.le_floor (show 9 / 16 ≤ maxLoadFactor by linarith) k
  have hBelow := LoadFactor.floor_lt (show 0 < maxLoadFactor by linarith) hHigh (k + 4)
  have hSize : 2 ^ (k + 4) ≤ 2 ^ 63 := Nat.pow_le_pow_right Nat.zero_lt_two (by omega)
  have hPos := Nat.two_pow_pos k
  have hEight : 2 ^ (k + 3) = 8 * 2 ^ k := by ring
  rw [upperLimitOf]
  push_cast
  rw [Nat.mod_eq_of_lt (by omega), sizePred, if_neg (by omega)]
  omega

namespace Sound

variable {dict : Dict K V} {stored : Multiset (Pair K V)} {present : K → Bool} {key : K}

theorem probe_lt (h : Sound maxLoadFactor oor bp dict stored present) (hash j : Nat) :
    probe dict.mask hash j < dict.mask + 1 := by
  obtain ⟨k, _, hSize⟩ := h.size
  exact Triangular.probe_lt hSize hash j

theorem size_le (h : Sound maxLoadFactor oor bp dict stored present) :
    dict.mask + 1 ≤ 2 ^ 63 := by
  obtain ⟨k, hk, hSize⟩ := h.size
  rw [hSize]
  exact Nat.pow_le_pow_right Nat.zero_lt_two (by omega)

theorem count_le (h : Sound maxLoadFactor oor bp dict stored present) :
    dict.count ≤ dict.countDelete := h.count_eq ▸ h.counted.card_le

theorem limit_bounds (h : Sound maxLoadFactor oor bp dict stored present)
    (hLow : 5 / 8 ≤ maxLoadFactor) (hHigh : maxLoadFactor < 1) :
    (dict.mask + 1) / 2 ≤ dict.upperLimit ∧ dict.upperLimit + 2 ≤ dict.mask + 1 := by
  obtain ⟨k, hk, hSize⟩ := h.size
  have hBounds := upperLimitOf_bounds hLow hHigh hk
  have hDouble : 2 ^ (k + 4) = 2 * 2 ^ (k + 3) := by ring
  rw [h.upperLimit_eq, hSize]
  omega

theorem present_iff (h : Sound maxLoadFactor oor bp dict stored present) :
    present key = true ↔ ∃ e ∈ stored, bp.cmprKeys e.key key = true := by
  rw [h.holds key, Multiset.mem_map]
  simp only [bp.cls_eq_iff]

/-- What a probe for a regular key stops at. -/
theorem stops_eq (h : oor.Lawful) (hKey : Regular oor bp key) (p : Nat) :
    stops oor bp dict key p =
      (slots oor dict.data p).stops fun e => bp.cmprKeys e.key key := by
  have hReserved {n : Nat} (hn : n < 2) (hEq : oor.oorEqual (dict.data p).key n = true) :
      bp.cmprKeys (dict.data p).key key = false := by
    rw [(h.oorEqual_iff n hn _).mp hEq]
    exact hKey n hn
  rw [stops]
  cases hSlot : slots oor dict.data p with
  | empty =>
      rw [oorEqual_of_empty hSlot, Bool.or_true, Slot.stops_empty]
  | deleted =>
      obtain ⟨hDeleted, hEmpty⟩ := oorEqual_of_deleted h hSlot
      rw [hReserved (show oaDeleted < 2 by decide) hDeleted, hEmpty]
      rfl
  | live e =>
      obtain ⟨rfl, hEmpty, _⟩ := slotOf_eq_live_iff.mp hSlot
      rw [hEmpty, Bool.or_false, Slot.stops_live]

/-- With an empty slot a probe loop ends: at the slot of its key, or at the
first empty slot if the key is absent. -/
theorem probeFor (h : Sound maxLoadFactor oor bp dict stored present) (hLawful : oor.Lawful)
    (hRoom : dict.countDelete < dict.mask + 1) (hKey : Regular oor bp key) {σ : Type}
    (update : Nat → σ → σ) (acc : σ) :
    ∃ j, (∀ i < j, slots oor dict.data (probe dict.mask (bp.hashKey key) i) ≠ .empty) ∧
      ReturnsTo (fun fuel => probeFor oor bp update acc fuel dict key)
        (j, trail update (probe dict.mask (bp.hashKey key)) j acc) ∧
      ((∃ e ∈ stored, slots oor dict.data (probe dict.mask (bp.hashKey key) j) = .live e ∧
          bp.cmprKeys e.key key = true ∧ present key = true) ∨
        (slots oor dict.data (probe dict.mask (bp.hashKey key) j) = .empty ∧
          present key = false)) := by
  obtain ⟨k, _, hSize⟩ := h.size
  have hHit : ∀ e ∈ stored, bp.cmprKeys e.key key = true →
      slotSeq bp dict.mask e = probe dict.mask (bp.hashKey key) := fun e he hEq => by
    rw [slotSeq, bp.hashKey_congr hEq]
  obtain ⟨j, hSearch, hBefore, hEnd⟩ := h.counted.lookup hRoom (h.probe_lt (bp.hashKey key))
    (fun p => exists_probe hSize (bp.hashKey key)) hHit (fun p _ => stops_eq hLawful hKey p)
    update acc
  refine ⟨j, hBefore, hSearch, ?_⟩
  rcases hEnd with ⟨e, he, hLive, hEq⟩ | ⟨hEmpty, hNone⟩
  · exact Or.inl ⟨e, he, hLive, hEq, h.present_iff.mpr ⟨e, he, hEq⟩⟩
  · refine Or.inr ⟨hEmpty, Bool.eq_false_iff.mpr fun hPresent => ?_⟩
    obtain ⟨e, he, hEq⟩ := h.present_iff.mp hPresent
    rw [hNone e he] at hEq
    cases hEq

/-- A key that is present gets the new value. -/
theorem insert_present (h : Sound maxLoadFactor oor bp dict stored present) (hLawful : oor.Lawful)
    (hRoom : dict.countDelete < dict.mask + 1) (hKey : Regular oor bp key)
    (hPresent : present key = true) :
    ∃ data' stored', ReturnsTo (fun fuel => (Shim.insert maxLoadFactor oor bp fuel dict key).run)
        (.ok { dict with data := data' }) ∧
      Sound maxLoadFactor oor bp { dict with data := data' } stored'
        (bp.apply present (.insert key)) := by
  obtain ⟨j, _, hProbe, ⟨e, he, hLive, hEq, _⟩ | ⟨_, hAbsent⟩⟩ := h.probeFor hLawful hRoom hKey
    (noteFirst fun p => oor.oorEqual (dict.data p).key oaDeleted) none
  · obtain ⟨rest, rfl⟩ := Multiset.exists_cons_of_mem he
    have hp := h.probe_lt (bp.hashKey key) j
    obtain ⟨rfl, _⟩ := slotOf_eq_live_iff.mp hLive
    have hClasses : bp.cls key ∈
        (dict.data (probe dict.mask (bp.hashKey key) j) ::ₘ rest).map fun e => bp.cls e.key :=
      Multiset.mem_map.mpr ⟨_, he, bp.cls_eq_iff.mpr hEq⟩
    have hRegular := h.regular _ he
    refine ⟨Function.update dict.data (probe dict.mask (bp.hashKey key) j)
        ⟨(dict.data (probe dict.mask (bp.hashKey key) j)).key, bp.valueType⟩,
      ⟨(dict.data (probe dict.mask (bp.hashKey key) j)).key, bp.valueType⟩ ::ₘ rest,
      (lift_returns hProbe).andThen ?_, h.size, ?_, ?_, h.upperLimit_eq, h.lowerLimit_eq,
      fun e' he' => ?_, ?_, ?_⟩
    · simp only [hEq, if_true]
      exact ReturnsTo.pure _
    · have hSlot := slotOf_regular hLawful
        (s := ⟨(dict.data (probe dict.mask (bp.hashKey key) j)).key, bp.valueType⟩) hRegular
      dsimp only
      rw [slots_update, hSlot]
      exact h.counted.assign hp hLive rfl
    · rw [Multiset.card_cons, ← Multiset.card_cons, ← h.count_eq]
    · rcases Multiset.mem_cons.mp he' with rfl | he'
      · exact hRegular
      · exact h.regular e' (Multiset.mem_cons_of_mem he')
    · rw [Multiset.map_cons]
      have hHolds := h.holds.insert_old hClasses
      rwa [Multiset.map_cons] at hHolds
    · have hNodup := h.nodup
      rwa [Multiset.map_cons] at hNodup ⊢
  · rw [hAbsent] at hPresent
    cases hPresent

/-- A key that is absent is stored, and then the limit is checked. -/
theorem insert_absent (h : Sound maxLoadFactor oor bp dict stored present) (hLawful : oor.Lawful)
    (hRoom : dict.countDelete < dict.mask + 1) (hKey : Regular oor bp key)
    (hAbsent : present key = false) :
    ∃ dict' stored', Sound maxLoadFactor oor bp dict' stored' (bp.apply present (.insert key)) ∧
      dict'.mask = dict.mask ∧ dict'.count = dict.count + 1 ∧
      dict'.countDelete ≤ dict.countDelete + 1 ∧
      ∀ r, ReturnsTo (fun fuel => (checkLimit maxLoadFactor oor bp fuel dict').run) r →
        ReturnsTo (fun fuel => (Shim.insert maxLoadFactor oor bp fuel dict key).run) r := by
  have hCount := h.count_le
  have hSize := h.size_le
  obtain ⟨j, hBefore, hProbe, ⟨_, _, _, _, hPresent⟩ | ⟨hEmpty, _⟩⟩ := h.probeFor hLawful hRoom hKey
    (noteFirst fun p => oor.oorEqual (dict.data p).key oaDeleted) none
  · rw [hAbsent] at hPresent
    cases hPresent
  · have hProbed : ∀ j, slotSeq bp dict.mask (⟨key, bp.valueType⟩ : Pair K V) j < dict.mask + 1 :=
      h.probe_lt (bp.hashKey key)
    obtain ⟨noted, hNoted⟩ : ∃ noted, noted = trail (noteFirst fun p =>
      oor.oorEqual (dict.data p).key oaDeleted) (probe dict.mask (bp.hashKey key)) j none := ⟨_, rfl⟩
    obtain ⟨hCounted, _, _⟩ := h.counted.claim hProbed hBefore hEmpty
      (fun p _ => (slotOf_isDeleted hLawful).symm) hNoted
    have hFilled : noted ≠ none → 0 < dict.countDelete := fun hSome => by
      obtain ⟨q, rfl⟩ := Option.ne_none_iff_exists'.mp hSome
      obtain ⟨i, hi, rfl, _⟩ := trail_noteFirst_eq_some _ hNoted.symm
      exact h.counted.filled_pos (h.probe_lt (bp.hashKey key) i) (hBefore i hi)
    have hDelete : sizeSucc (if noted = none then dict.countDelete else sizePred dict.countDelete) =
        (if noted = none then dict.countDelete else dict.countDelete - 1) + 1 := by
      split_ifs with hNone
      · exact Nat.mod_eq_of_lt (by omega)
      · have hPos := hFilled hNone
        rw [sizePred, if_neg hPos.ne', sizeSucc, Nat.mod_eq_of_lt (by omega)]
    have hClass : bp.cls key ∉ stored.map fun e => bp.cls e.key := fun hMem => by
      rw [(h.holds key).mpr hMem] at hAbsent
      cases hAbsent
    have hSlot := slotOf_regular hLawful (s := ⟨key, bp.valueType⟩) hKey
    refine ⟨storeAt dict key bp.valueType (probe dict.mask (bp.hashKey key) j) noted,
      ⟨key, bp.valueType⟩ ::ₘ stored, ⟨h.size, ?_, ?_, h.upperLimit_eq, h.lowerLimit_eq,
        fun e he => ?_, ?_, ?_⟩, rfl, Nat.mod_eq_of_lt (by omega), ?_, fun r hCheck => ?_⟩
    · simp only [storeAt, slots_update, hSlot, hDelete]
      exact hCounted
    · rw [Multiset.card_cons, ← h.count_eq]
      exact Nat.mod_eq_of_lt (by omega)
    · rcases Multiset.mem_cons.mp he with rfl | he
      · exact hKey
      · exact h.regular e he
    · rw [Multiset.map_cons]
      exact h.holds.insert_new key
    · rw [Multiset.map_cons]
      exact Multiset.nodup_cons.mpr ⟨hClass, h.nodup⟩
    · simp only [storeAt, hDelete]
      split_ifs <;> omega
    · rw [hNoted] at hCheck
      refine (lift_returns hProbe).andThen ?_
      simp only [hKey.differs hLawful hEmpty, Bool.false_eq_true, if_false]
      exact hCheck

end Sound

end HashBench.MlibDictOa
