import HashBench.Library.LoadFactor
import HashBench.MlibDict.Operations

/-! The entries allocated for a dictionary. A load factor of 9/16 or more lets
the index grow before they are used up; a smaller one does not. -/
namespace HashBench.MlibDict

open Search Triangular OpenAddressing Memory

variable {K V : Type}

section Limits

variable {maxLoadFactor : ℚ} {k : Nat}

/-- The upper limit, for the sizes that the index takes. -/
theorem upperLimitOf_eq (hPos : 0 < maxLoadFactor) (hHigh : maxLoadFactor < 1) (hk : k ≤ 27) :
    upperLimitOf maxLoadFactor (2 ^ (k + 4)) = indexPred ⌊(2 ^ (k + 4) : ℚ) * maxLoadFactor⌋₊ ∧
      ⌊(2 ^ (k + 4) : ℚ) * maxLoadFactor⌋₊ < 2 ^ (k + 4) := by
  have hBelow := LoadFactor.floor_lt hPos hHigh (k + 4)
  have hSize : 2 ^ (k + 4) ≤ 2 ^ 31 := Nat.pow_le_pow_right Nat.zero_lt_two (by omega)
  refine ⟨?_, hBelow⟩
  rw [upperLimitOf]
  push_cast
  rw [Nat.mod_eq_of_lt (by omega)]

/-- Half of the slots may be used before the limit, and two stay empty. -/
theorem upperLimitOf_bounds (hLow : 9 / 16 ≤ maxLoadFactor) (hHigh : maxLoadFactor < 1)
    (hk : k ≤ 27) : 2 ^ (k + 3) ≤ upperLimitOf maxLoadFactor (2 ^ (k + 4)) ∧
      upperLimitOf maxLoadFactor (2 ^ (k + 4)) + 2 ≤ 2 ^ (k + 4) := by
  obtain ⟨hEq, hBelow⟩ := upperLimitOf_eq (by linarith) hHigh hk
  have hAbove := LoadFactor.le_floor hLow k
  have hPos := Nat.two_pow_pos k
  have hEight : 2 ^ (k + 3) = 8 * 2 ^ k := by ring
  rw [hEq, indexPred, if_neg (by omega)]
  omega

end Limits

/-- The limit is not passed, and the entries allocated suffice up to it. -/
structure Fits (map : Dict K V) : Prop where
  filled : map.countDelete ≤ map.upperLimit
  room : 3 + map.upperLimit ≤ map.data.size

namespace Sound

variable {maxLoadFactor : ℚ} {bp : Blueprint K V} {map : Dict K V}
  {stored : Multiset IndexHash} {free : List Nat} {present : K → Bool} {key : K}

/-- The limit in force, by the size of the index. -/
theorem limit_bounds (h : Sound maxLoadFactor bp map stored free present)
    (hLow : 9 / 16 ≤ maxLoadFactor) (hHigh : maxLoadFactor < 1) :
    (map.mask + 1) / 2 ≤ map.upperLimit ∧ map.upperLimit + 2 ≤ map.mask + 1 := by
  obtain ⟨k, hk, hSize⟩ := h.size
  have hBounds := upperLimitOf_bounds hLow hHigh hk
  have hDouble : 2 ^ (k + 4) = 2 * 2 ^ (k + 3) := by ring
  rw [h.upperLimit_eq, hSize]
  omega

/-- The count of live slots and tombstones bounds the entries. -/
theorem count_le (h : Sound maxLoadFactor bp map stored free present) :
    map.count ≤ map.countDelete := h.count_eq ▸ h.counted.card_le

/-- The entries in use are those of the count, if the freelist is empty. -/
theorem freelistCount_lt (h : Sound maxLoadFactor bp map stored free present) (hFits : Fits map)
    (hFree : free = []) : map.freelistCount < map.data.size := by
  have hCount := h.entries.freelistCount_eq
  have hLe := h.count_le
  have hFilled := hFits.filled
  have hRoom := hFits.room
  rw [← h.count_eq, hFree, List.length_nil] at hCount
  omega

/-- A dictionary that grows has entries for its new limit. -/
theorem enlarge_room (h : Sound maxLoadFactor bp map stored free present) {newSize : Nat}
    (hGrow : map.mask + 1 < newSize) (hLimit : upperLimitOf maxLoadFactor newSize + 3 < 2 ^ 32) :
    3 + upperLimitOf maxLoadFactor newSize ≤ (enlarge maxLoadFactor map newSize).data.size := by
  have hCapacity := h.capacity
  have hMod : (1 + 2 + upperLimitOf maxLoadFactor newSize) % 2 ^ 32 =
      3 + upperLimitOf maxLoadFactor newSize := Nat.mod_eq_of_lt (by omega)
  simp only [enlarge, if_pos hGrow, extend, updateLimit, hMod]
  split_ifs with hRealloc
  · exact le_rfl
  · exact (Nat.le_of_not_lt hRealloc).trans hCapacity

/-- An index that need not grow is rebuilt over the same slots, if at all. -/
theorem checkLimit_same (h : Sound maxLoadFactor bp map stored free present)
    (hSame : map.upperLimit ≤ map.countDelete → map.count ≤ (map.mask + 1) / 2) :
    ∃ map', ReturnsTo (fun fuel => (checkLimit maxLoadFactor fuel map).run) (.ok map') ∧
      Sound maxLoadFactor bp map' stored free present ∧ map'.mask = map.mask ∧
      map'.count = map.count ∧ map'.data.size = map.data.size ∧
      map'.countDelete ≤ map.countDelete ∧
      (map'.countDelete < map.upperLimit ∨ map'.countDelete ≤ (map.mask + 1) / 2) := by
  have hCount := h.count_le
  unfold checkLimit
  by_cases hFull : map.countDelete ≥ map.upperLimit
  · have hFew := hSame hFull
    simp only [if_pos hFull, if_neg (Nat.not_lt_of_le hFew)]
    obtain ⟨map', hRun, hSound, hMask, hCount', hFilled, hData⟩ := h.resizeUp h.size le_rfl (by omega)
    refine ⟨map', hRun, hSound, by omega, hCount', ?_, by omega, by omega⟩
    rw [hData, enlarge, if_neg (lt_irrefl _)]
    rfl
  · simp only [if_neg hFull]
    exact ⟨map, ReturnsTo.pure _, h, rfl, rfl, rfl, le_rfl, by omega⟩

/-- After a store, the limit holds again or memory has run out. -/
theorem checkLimit (h : Sound maxLoadFactor bp map stored free present)
    (hLow : 9 / 16 ≤ maxLoadFactor) (hHigh : maxLoadFactor < 1)
    (hFilled : map.countDelete ≤ map.upperLimit + 1) (hRoom : 3 + map.upperLimit ≤ map.data.size) :
    (∃ map', ReturnsTo (fun fuel => (checkLimit maxLoadFactor fuel map).run) (.ok map') ∧
        Sound maxLoadFactor bp map' stored free present ∧ Fits map') ∨
      ReturnsTo (fun fuel => (MlibDict.checkLimit maxLoadFactor fuel map).run)
          (.error .memoryFull) ∧ 2 ^ 30 < map.count := by
  obtain ⟨k, hk, hSize⟩ := h.size
  obtain ⟨hHalf, hTop⟩ := h.limit_bounds hLow hHigh
  have hCount := h.count_le
  by_cases hGrow : map.upperLimit ≤ map.countDelete ∧ (map.mask + 1) / 2 < map.count
  · unfold MlibDict.checkLimit
    simp only [if_pos hGrow.1, if_pos hGrow.2]
    rcases Nat.lt_or_eq_of_le hk with hk | rfl
    · have hDouble : 2 ^ (k + 1 + 4) = 2 * 2 ^ (k + 4) := by ring
      have hBelow : 2 ^ (k + 1 + 4) ≤ 2 ^ 31 := Nat.pow_le_pow_right Nat.zero_lt_two (by omega)
      have hNew : (map.mask + 1 + (map.mask + 1)) % 2 ^ 32 = 2 ^ (k + 1 + 4) := by
        rw [Nat.mod_eq_of_lt (by omega)]
        omega
      obtain ⟨map', hRun, hSound, hMask, hCount', hFilled', hData⟩ := h.resizeUp
        ⟨k + 1, by omega, rfl⟩ (show map.mask + 1 ≤ 2 ^ (k + 1 + 4) by omega) (by omega)
      have hBounds := upperLimitOf_bounds hLow hHigh (show k + 1 ≤ 27 by omega)
      refine Or.inl ⟨map', ?_, hSound, ?_, ?_⟩
      · rw [hNew]
        simpa only [if_neg (show ¬ 2 ^ (k + 1 + 4) ≤ map.mask + 1 by omega)] using hRun
      · have hHalf' := (hSound.limit_bounds hLow hHigh).1
        omega
      · rw [hSound.upperLimit_eq, hMask, hData]
        exact h.enlarge_room (by omega) (by omega)
    · refine Or.inr ⟨?_, by omega⟩
      have hWraps : (2 ^ (27 + 4) + 2 ^ (27 + 4)) % 2 ^ 32 ≤ 2 ^ (27 + 4) := by decide
      simp only [hSize, if_pos hWraps]
      exact ReturnsTo.pure _
  · obtain ⟨map', hRun, hSound, hMask, _, hData, _, hLess⟩ := h.checkLimit_same (by omega)
    have hLimit : map'.upperLimit = map.upperLimit := by
      rw [hSound.upperLimit_eq, h.upperLimit_eq, hMask]
    exact Or.inl ⟨map', hRun, hSound, by omega, by omega⟩

/-- A key that is present gets the new value. -/
theorem insert_present (h : Sound maxLoadFactor bp map stored free present)
    (hEmpty : map.countDelete < map.mask + 1) (hPresent : present key = true) :
    ∃ d s, ReturnsTo (fun fuel => (Shim.insert maxLoadFactor bp fuel map key).run)
        (.ok { map with data := map.data.set d s }) ∧
      Sound maxLoadFactor bp { map with data := map.data.set d s } stored free
        (bp.apply present (.insert key)) := by
  obtain ⟨j, _, ⟨e, he, hLive, hAccepts, _, hProbe⟩ | ⟨_, hAbsent, _⟩⟩ :=
    h.probeFor hEmpty key (noteFirst fun p => (map.index.cell p).index == 1) none
  · obtain ⟨k, v, hCell, hPair, _, hIn⟩ := h.readPair he
    obtain ⟨k', hKey, hEq⟩ := (h.accepts_iff he).mp hAccepts
    obtain rfl : k' = k := hKey.unique ⟨v, hCell⟩
    have hIndex : (map.index.cell (probe map.mask (hashOf bp key) j)).index = e.index := by
      rw [(slotOf_eq_live_iff.mp hLive).1]
    refine ⟨e.index, .pair k' bp.valueType, ?_, h.size, h.index_size, h.counted, h.count_eq,
      h.upperLimit_eq, h.lowerLimit_eq, h.entries.assign he hKey hEq bp.valueType, h.capacity⟩
    refine hProbe.andThen ?_
    simp only [if_true, hIndex, hPair, Buffer.write_of_lt Fault.dataBounds hIn, check_bind]
    exact ReturnsTo.pure _
  · rw [hAbsent] at hPresent
    cases hPresent

/-- A key that is absent is stored, and then the limit is checked. -/
theorem insert_absent (h : Sound maxLoadFactor bp map stored free present)
    (hEmpty : map.countDelete < map.mask + 1) (hAbsent : present key = false)
    (hFit : free = [] → map.freelistCount < map.data.size) :
    ∃ map' stored' free', Sound maxLoadFactor bp map' stored' free' (bp.apply present (.insert key)) ∧
      map'.mask = map.mask ∧ map'.count = map.count + 1 ∧ map'.countDelete ≤ map.countDelete + 1 ∧
      map'.data.size = map.data.size ∧ (free = [] → free' = []) ∧
      ∀ r, ReturnsTo (fun fuel => (MlibDict.checkLimit maxLoadFactor fuel map').run) r →
        ReturnsTo (fun fuel => (Shim.insert maxLoadFactor bp fuel map key).run) r := by
  obtain ⟨j, hBefore, ⟨_, _, _, _, hPresent, _⟩ | ⟨hSlot, _, hProbe⟩⟩ :=
    h.probeFor hEmpty key (noteFirst fun p => (map.index.cell p).index == 1) none
  · rw [hAbsent] at hPresent
    cases hPresent
  · obtain ⟨map', stored', free', hStore, hSound, hMask, hCount, hDelete, hData, hFree⟩ :=
      h.storeAt bp.valueType hBefore hSlot hAbsent rfl hFit
    refine ⟨map', stored', free', hSound, hMask, hCount, ?_, hData, hFree, fun r hCheck => ?_⟩
    · rw [hDelete]
      split_ifs <;> omega
    · refine hProbe.andThen ?_
      simp only [reduceCtorEq, if_false, hStore, check_bind]
      exact hCheck

/-- An insertion stores the key, unless memory runs out. -/
theorem insert (h : Sound maxLoadFactor bp map stored free present) (hFits : Fits map)
    (hLow : 9 / 16 ≤ maxLoadFactor) (hHigh : maxLoadFactor < 1) (key : K) :
    (∃ map' stored' free',
        ReturnsTo (fun fuel => (Shim.insert maxLoadFactor bp fuel map key).run) (.ok map') ∧
        Sound maxLoadFactor bp map' stored' free' (bp.apply present (.insert key)) ∧ Fits map') ∨
      ReturnsTo (fun fuel => (Shim.insert maxLoadFactor bp fuel map key).run)
        (.error .memoryFull) ∧ present key = false ∧ 2 ^ 30 ≤ map.count := by
  have hFilled := hFits.filled
  have hTop := (h.limit_bounds hLow hHigh).2
  cases hKey : present key with
  | true =>
      obtain ⟨d, s, hRun, hSound⟩ := h.insert_present (by omega) hKey
      exact Or.inl ⟨_, stored, free, hRun, hSound, hFits.filled, hFits.room⟩
  | false =>
      obtain ⟨map', stored', free', hSound, hMask, hCount, hDelete, hData, _, hRun⟩ :=
        h.insert_absent (by omega) hKey (h.freelistCount_lt hFits)
      have hLimit : map'.upperLimit = map.upperLimit := by
        rw [hSound.upperLimit_eq, h.upperLimit_eq, hMask]
      have hRoom : 3 + map'.upperLimit ≤ map'.data.size := by
        rw [hLimit, hData]
        exact hFits.room
      rcases hSound.checkLimit hLow hHigh (by omega) hRoom with
        ⟨map'', hCheck, hSound', hFits'⟩ | ⟨hCheck, hMany⟩
      · exact Or.inl ⟨map'', stored', free', hRun _ hCheck, hSound', hFits'⟩
      · exact Or.inr ⟨hRun _ hCheck, rfl, by omega⟩

/-- An index with few entries is halved. -/
theorem shrink (h : Sound maxLoadFactor bp map stored free present) (hFits : Fits map)
    (hLow : 9 / 16 ≤ maxLoadFactor) (hHigh : maxLoadFactor < 1)
    (hFew : map.count < map.lowerLimit) :
    ∃ map', ReturnsTo (fun fuel =>
        (MlibDict.resizeDown maxLoadFactor fuel map ((map.mask + 1) >>> 1)).run) (.ok map') ∧
      Sound maxLoadFactor bp map' stored free present ∧ Fits map' := by
  have hRoom := hFits.room
  have hHalf := (h.limit_bounds hLow hHigh).1
  obtain ⟨k, hk, hSize⟩ := h.size
  rw [h.lowerLimit_eq, lowerLimitOf, initialSize] at hFew
  split_ifs at hFew with hInitial
  · exact absurd hFew (Nat.not_lt_zero _)
  obtain _ | k := k
  · exact absurd hSize.le hInitial
  have hDouble : 2 ^ (k + 1 + 4) = 2 * 2 ^ (k + 4) := by ring
  have hNew : (map.mask + 1) >>> 1 = 2 ^ (k + 4) := by
    rw [Nat.shiftRight_eq_div_pow]
    omega
  obtain ⟨map', hRun, hSound, hMask, _, hFilled, hData⟩ :=
    h.resizeDown (show k ≤ 27 by omega) hNew (by omega) (by omega)
  have hBounds := hSound.limit_bounds hLow hHigh
  exact ⟨map', hRun, hSound, by omega, by omega⟩

/-- An erasure takes the key out, and shrinks an index with few entries. -/
theorem erase (h : Sound maxLoadFactor bp map stored free present) (hFits : Fits map)
    (hLow : 9 / 16 ≤ maxLoadFactor) (hHigh : maxLoadFactor < 1) (key : K) :
    ∃ map' stored' free',
      ReturnsTo (fun fuel => (Shim.erase maxLoadFactor bp fuel map key).run) (.ok map') ∧
      Sound maxLoadFactor bp map' stored' free' (bp.apply present (.erase key)) ∧ Fits map' := by
  have hFilled := hFits.filled
  have hTop := (h.limit_bounds hLow hHigh).2
  obtain ⟨j, hBefore, ⟨e, he, hLive, hAccepts, hPresent, hProbe⟩ | ⟨hEmpty, hAbsent, hProbe⟩⟩ :=
    h.probeFor (by omega) key (fun _ acc => acc) ()
  · obtain ⟨rest, rfl⟩ := Multiset.exists_cons_of_mem he
    obtain ⟨map', hRemove, hSound, hMask, hCount, hDelete, hData⟩ :=
      h.removeAt (h.probe_lt (hashOf bp key) j) hLive hAccepts
    have hLimit : map'.upperLimit = map.upperLimit := by
      rw [hSound.upperLimit_eq, h.upperLimit_eq, hMask]
    have hFits' : Fits map' := ⟨by rw [hDelete, hLimit]; exact hFits.filled,
      by rw [hLimit, hData]; exact hFits.room⟩
    have hRun {r : Except Fault (Dict K V)}
        (hRest : ReturnsTo (fun fuel => (if map'.count < map'.lowerLimit then
          MlibDict.resizeDown maxLoadFactor fuel map' ((map'.mask + 1) >>> 1)
          else pure map' : Exec (Dict K V)).run) r) :
        ReturnsTo (fun fuel => (Shim.erase maxLoadFactor bp fuel map key).run) r := by
      refine hProbe.andThen ?_
      simp only [if_true, hRemove, check_bind]
      exact hRest
    by_cases hFew : map'.count < map'.lowerLimit
    · obtain ⟨map'', hShrink, hSound', hFits''⟩ := hSound.shrink hFits' hLow hHigh hFew
      simp only [if_pos hFew] at hRun
      exact ⟨map'', _, _, hRun hShrink, hSound', hFits''⟩
    · simp only [if_neg hFew] at hRun
      exact ⟨map', _, _, hRun (ReturnsTo.pure _), hSound, hFits'⟩
  · refine ⟨map, stored, free, ?_, ⟨h.size, h.index_size, h.counted, h.count_eq, h.upperLimit_eq,
      h.lowerLimit_eq, h.entries.keep hAbsent, h.capacity⟩, hFits⟩
    refine hProbe.andThen ?_
    simp only [reduceCtorEq, if_false]
    exact ReturnsTo.pure _

end Sound

section Runs

variable {maxLoadFactor : ℚ} {bp : Blueprint K V} {memory : Nat → Freelist K V}

theorem init_sound (maxLoadFactor : ℚ) (bp : Blueprint K V) (memory : Nat → Freelist K V) :
    Sound maxLoadFactor bp (init maxLoadFactor memory) 0 [] fun _ => false := by
  have hEmpty : slots (init maxLoadFactor memory).index = fun _ => .empty := rfl
  refine ⟨⟨0, Nat.zero_le 27, rfl⟩, rfl, ⟨?_, ?_, ?_⟩, rfl, rfl, rfl, ⟨?_, rfl, ⟨0, rfl, rfl⟩, ?_, ?_⟩,
    ?_⟩
  · intro p _ e hLive
    cases hLive
  · exact total_eq_zero _ fun _ _ => rfl
  · exact total_eq_zero _ fun _ _ => rfl
  · intro e he
    exact absurd he (Multiset.notMem_zero e)
  · intro k
    simp
  · intro e he
    exact absurd he (Multiset.notMem_zero e)
  · exact (Nat.le_add_left 2 1).trans (Nat.le_add_right ..)

/-- A dictionary between two calls, with these keys. -/
def Ready (maxLoadFactor : ℚ) (bp : Blueprint K V) (map : Dict K V) (present : K → Bool) : Prop :=
  Fits map ∧ ∃ stored free, Sound maxLoadFactor bp map stored free present

theorem init_ready :
    Ready maxLoadFactor bp (init maxLoadFactor memory) fun _ => false :=
  ⟨⟨Nat.zero_le _, le_rfl⟩, _, _, init_sound maxLoadFactor bp memory⟩

/-- One call returns, or memory runs out with an insertion. -/
theorem call_returns (hLow : 9 / 16 ≤ maxLoadFactor) (hHigh : maxLoadFactor < 1) {map : Dict K V}
    {present : K → Bool} (h : Ready maxLoadFactor bp map present) (op : Op K) :
    (∃ map', ReturnsTo (fun fuel => (Shim.call maxLoadFactor bp fuel map op).run) (.ok map') ∧
        Ready maxLoadFactor bp map' (bp.apply present op)) ∨
      ReturnsTo (fun fuel => (Shim.call maxLoadFactor bp fuel map op).run) (.error .memoryFull) ∧
        ∃ key, op = .insert key ∧ present key = false ∧ 2 ^ 30 ≤ map.count := by
  obtain ⟨hFits, stored, free, hSound⟩ := h
  cases op with
  | insert key =>
      rcases hSound.insert hFits hLow hHigh key with
        ⟨map', stored', free', hRun, hSound', hFits'⟩ | ⟨hRun, hAbsent, hMany⟩
      · exact Or.inl ⟨map', hRun, hFits', stored', free', hSound'⟩
      · exact Or.inr ⟨hRun, key, rfl, hAbsent, hMany⟩
  | erase key =>
      obtain ⟨map', stored', free', hRun, hSound', hFits'⟩ := hSound.erase hFits hLow hHigh key
      exact Or.inl ⟨map', hRun, hFits', stored', free', hSound'⟩

/-- A run reaches a dictionary with the keys of its calls, or memory runs out
at a call that inserts one key more. -/
theorem run_returns (hLow : 9 / 16 ≤ maxLoadFactor) (hHigh : maxLoadFactor < 1)
    (bp : Blueprint K V) (memory : Nat → Freelist K V) (ops : List (Op K)) :
    (∃ map, ReturnsTo (fun fuel => (Shim.run maxLoadFactor memory bp fuel ops).run) (.ok map) ∧
        Ready maxLoadFactor bp map (bp.present ops)) ∨
      ReturnsTo (fun fuel => (Shim.run maxLoadFactor memory bp fuel ops).run)
          (.error .memoryFull) ∧
        ∃ before key after, ops = before ++ .insert key :: after ∧ bp.present before key = false ∧
          ∃ map, Ready maxLoadFactor bp map (bp.present before) ∧ 2 ^ 30 ≤ map.count := by
  induction ops using List.reverseRecOn with
  | nil => exact Or.inl ⟨_, ReturnsTo.pure _, init_ready⟩
  | append_singleton ops op ih =>
      have hSplit (fuel : Nat) : Shim.run maxLoadFactor memory bp fuel (ops ++ [op]) =
          Shim.run maxLoadFactor memory bp fuel ops >>= fun map =>
            Shim.call maxLoadFactor bp fuel map op := by
        simp [Shim.run, List.foldlM_append]
      simp only [hSplit, Blueprint.present_concat]
      rcases ih with ⟨map, hRun, hReady⟩ | ⟨hRun, before, key, after, rfl, hAbsent, hMany⟩
      · rcases call_returns hLow hHigh hReady op with
          ⟨map', hCall, hReady'⟩ | ⟨hCall, key, rfl, hAbsent, hMany⟩
        · exact Or.inl ⟨map', hRun.andThen hCall, hReady'⟩
        · exact Or.inr ⟨hRun.andThen hCall, ops, key, [], rfl, hAbsent, map, hReady, hMany⟩
      · refine Or.inr ⟨hRun.raise _, before, key, after ++ [op], ?_, hAbsent, hMany⟩
        rw [List.append_assoc, List.cons_append]

end Runs

end HashBench.MlibDict
