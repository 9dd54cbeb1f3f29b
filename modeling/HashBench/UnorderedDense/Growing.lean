import HashBench.UnorderedDense.Erasing

/-! How many buckets a table has, and the calls that change it. -/
namespace HashBench.UnorderedDense

open Search While RobinHood Dense

variable {K V : Type} {maxLoad : ℚ} {bp : Blueprint K V} {table : Table K V}

theorem calcNumBuckets_eq {shifts : Nat} (h : 32 ≤ shifts) :
    calcNumBuckets shifts = 2 ^ (64 - shifts) := by
  rw [calcNumBuckets, maxSize, Nat.one_shiftLeft]
  exact min_eq_right (Nat.pow_le_pow_right Nat.two_pos (by omega))

theorem calcNumBuckets_max {shifts : Nat} (h : shifts ≤ 32) : calcNumBuckets shifts = maxSize := by
  rw [calcNumBuckets, maxSize, Nat.one_shiftLeft]
  exact min_eq_left (Nat.pow_le_pow_right Nat.two_pos (by omega))

theorem calcNumBuckets_pos (shifts : Nat) : 0 < calcNumBuckets shifts := by
  rw [calcNumBuckets, maxSize, Nat.one_shiftLeft]
  exact lt_min (Nat.two_pow_pos _) (Nat.two_pow_pos _)

theorem calcNumBuckets_anti {shifts shifts' : Nat} (h : shifts ≤ shifts') :
    calcNumBuckets shifts' ≤ calcNumBuckets shifts := by
  rw [calcNumBuckets, calcNumBuckets, Nat.one_shiftLeft, Nat.one_shiftLeft]
  exact min_le_min_left _ (Nat.pow_le_pow_right Nat.two_pos (by omega))

theorem capacityOf_lt (h : maxLoad < 1) {numBuckets : Nat} (hPos : 0 < numBuckets) :
    capacityOf maxLoad numBuckets < numBuckets := by
  rw [capacityOf, Nat.floor_lt' hPos.ne']
  exact mul_lt_of_lt_one_right (Nat.cast_pos.mpr hPos) h

/-- A size that the largest table has room for is given room. -/
theorem calcShiftsFrom_spec {size : Nat} (h : size ≤ capacityOf maxLoad maxSize) {shifts : Nat}
    (hShifts : 32 ≤ shifts) :
    32 ≤ calcShiftsFrom maxLoad size shifts ∧ calcShiftsFrom maxLoad size shifts ≤ shifts ∧
      size ≤ capacityOf maxLoad (calcNumBuckets (calcShiftsFrom maxLoad size shifts)) := by
  induction shifts with
  | zero => omega
  | succ shifts ih =>
      rw [calcShiftsFrom]
      split_ifs with hSmall
      · rcases Nat.lt_or_eq_of_le hShifts with hLess | hEq
        · obtain ⟨hLow, hHigh, hRoom⟩ := ih (Nat.le_of_lt_succ hLess)
          exact ⟨hLow, Nat.le_succ_of_le hHigh, hRoom⟩
        · rw [← hEq, calcNumBuckets_max (Nat.le_refl 32)] at hSmall
          omega
      · exact ⟨hShifts, Nat.le_refl _, Nat.le_of_not_lt hSmall⟩

/-- The capacity is the one of the number of buckets. -/
def Capacious (maxLoad : ℚ) (table : Table K V) : Prop :=
  table.maxBucketCapacity =
    if table.numBuckets = maxSize then maxSize else capacityOf maxLoad table.numBuckets

/-- A table between two calls. -/
structure Sound (maxLoad : ℚ) (bp : Blueprint K V) (table : Table K V) : Prop where
  indexed : Indexed bp table table.values.length ∨
    table.values = [] ∧ table.numBuckets = 0 ∧ table.shifts = initialShifts
  capacious : Capacious maxLoad table
  nodup : (bp.keyClasses (table.values : Multiset (K × V))).Nodup

theorem sound_createTable (maxLoad : ℚ) (bp : Blueprint K V) : Sound maxLoad bp (createTable maxLoad) where
  indexed := Or.inr ⟨rfl, rfl, rfl⟩
  capacious := by simp [Capacious, createTable, maxSize]
  nodup := Multiset.nodup_zero

/-- `m_shifts` is changed and the buckets are filled again. -/
theorem reallocate_returns (maxLoad : ℚ) (bp : Blueprint K V) (table : Table K V) {shifts : Nat}
    (hPos : 0 < shifts) (hLt : shifts < 64) (hFew : table.values.length ≤ pairLimit)
    (hRoom : table.values.length < calcNumBuckets shifts) :
    ∃ table', ReturnsTo (fun fuel => table.reallocate maxLoad bp fuel shifts) table' ∧
      table'.values = table.values ∧ table'.numBuckets = calcNumBuckets shifts ∧
      Indexed bp table' table.values.length ∧ Capacious maxLoad table' := by
  let allocated : Table K V :=
    { table with
      shifts := shifts
      numBuckets := calcNumBuckets shifts
      maxBucketCapacity :=
        if calcNumBuckets shifts = maxSize then maxSize
        else capacityOf maxLoad (calcNumBuckets shifts) }
  have hShaped : Shaped allocated := ⟨hPos, hLt, rfl⟩
  obtain ⟨buckets, hReturns, hIndexed⟩ := hShaped.fill_returns bp hFew hRoom
  refine ⟨{ allocated with buckets }, ?_, rfl, rfl, hIndexed, rfl⟩
  simp only [Table.reallocate, Table.allocateBucketsFromShift, if_neg hPos.ne']
  exact hReturns

namespace Sound

variable (h : Sound maxLoad bp table)
include h

/-- Before an insertion a table has, or is given, room for one more pair. -/
theorem grown_returns (hLoad : maxLoad < 1) (hFew : table.values.length ≤ pairLimit) :
    ∃ table', ReturnsTo (fun fuel => table.grown maxLoad bp fuel) table' ∧
      table'.values = table.values ∧ Indexed bp table' table.values.length ∧
      Capacious maxLoad table' ∧ table.values.length + 1 < table'.numBuckets := by
  have hCapacity := h.capacious
  rw [Capacious] at hCapacity
  have hMax : pairLimit + 2 < maxSize := by simp [pairLimit, maxSize]
  by_cases hFull : table.maxBucketCapacity ≤ table.values.length
  · have hNotMax : table.numBuckets ≠ maxSize := by
      intro hEq
      rw [if_pos hEq] at hCapacity
      omega
    rw [if_neg hNotMax] at hCapacity
    have hNotThrown : table.maxBucketCapacity ≠ maxSize := by omega
    have hGrow : 0 < table.shifts - 1 ∧ table.shifts - 1 < 64 ∧
        table.values.length + 1 < calcNumBuckets (table.shifts - 1) := by
      rcases h.indexed with hIndexed | ⟨hEmpty, _, hShifts⟩
      · have hLow : 32 < table.shifts := by
          by_contra hLe
          rw [hIndexed.numBuckets_eq, calcNumBuckets_max (Nat.le_of_not_lt hLe)] at hNotMax
          exact hNotMax rfl
        have hRoom := hIndexed.room
        have hLt := hIndexed.lt
        rw [hIndexed.numBuckets_eq, calcNumBuckets_eq hLow.le] at hRoom
        rw [calcNumBuckets_eq (by omega), show 64 - (table.shifts - 1) = 64 - table.shifts + 1 by
          omega, Nat.pow_succ]
        omega
      · simp [hShifts, hEmpty, calcNumBuckets, initialShifts, maxSize]
    obtain ⟨table', hReturns, hValues, hBuckets, hIndexed, hCapacious⟩ :=
      reallocate_returns maxLoad bp table hGrow.1 hGrow.2.1 hFew (by omega)
    refine ⟨table', ?_, hValues, hIndexed, hCapacious, hBuckets ▸ hGrow.2.2⟩
    simp only [Table.grown, Table.isFull, hFull, decide_true, if_true, Table.increaseSize,
      if_neg hNotThrown]
    exact hReturns
  · have hNotFull : table.isFull = false := decide_eq_false hFull
    have hIndexed : Indexed bp table table.values.length := by
      rcases h.indexed with hIndexed | ⟨hEmpty, hNone, _⟩
      · exact hIndexed
      · rw [hNone, if_neg (by simp [maxSize])] at hCapacity
        simp [hCapacity, capacityOf] at hFull
    refine ⟨table, ?_, rfl, hIndexed, h.capacious, ?_⟩
    · simp only [Table.grown, hNotFull, Bool.false_eq_true, if_false]
      exact ReturnsTo.pure _
    · split_ifs at hCapacity with hMaximal
      · omega
      · have hLess := capacityOf_lt hLoad hIndexed.numBuckets_pos
        omega

/-- Requests that the largest table has room for are met. -/
theorem resize_returns (hLoad : maxLoad < 1) (hFew : table.values.length ≤ pairLimit)
    (hLow : pairLimit ≤ capacityOf maxLoad maxSize) {request : Nat}
    (hRequest : min request maxSize ≤ capacityOf maxLoad maxSize) :
    ∃ table', ReturnsTo (fun fuel => table.reallocate maxLoad bp fuel
        (calcShiftsForSize maxLoad (max (min request maxSize) table.values.length))) table' ∧
      table'.values = table.values ∧ Sound maxLoad bp table' := by
  have hInitial : 32 ≤ initialShifts := by simp [initialShifts]
  obtain ⟨hPos, hLt, hRoom⟩ := calcShiftsFrom_spec (max_le hRequest (hFew.trans hLow)) hInitial
  rw [← calcShiftsForSize] at hPos hLt hRoom
  have hLess := capacityOf_lt hLoad (calcNumBuckets_pos
    (calcShiftsForSize maxLoad (max (min request maxSize) table.values.length)))
  obtain ⟨table', hReturns, hValues, _, hIndexed, hCapacious⟩ := reallocate_returns maxLoad bp table
    (Nat.zero_lt_of_lt hPos) (hLt.trans_lt (by simp [initialShifts])) hFew
    ((le_max_right _ _).trans hRoom |>.trans_lt hLess)
  exact ⟨table', hReturns, hValues, Or.inl (hValues ▸ hIndexed), hCapacious, hValues ▸ h.nodup⟩

theorem reserve_returns (hLoad : maxLoad < 1) (hFew : table.values.length ≤ pairLimit)
    (hLow : pairLimit ≤ capacityOf maxLoad maxSize) {capa : Nat}
    (hRequest : min capa maxSize ≤ capacityOf maxLoad maxSize) :
    ∃ table', ReturnsTo (fun fuel => table.reserve maxLoad bp fuel capa) table' ∧
      table'.values = table.values ∧ Sound maxLoad bp table' := by
  simp only [Table.reserve]
  split_ifs
  · exact h.resize_returns hLoad hFew hLow hRequest
  · exact ⟨table, ReturnsTo.pure _, rfl, h⟩

theorem rehash_returns (hLoad : maxLoad < 1) (hFew : table.values.length ≤ pairLimit)
    (hLow : pairLimit ≤ capacityOf maxLoad maxSize) {count : Nat}
    (hRequest : min count maxSize ≤ capacityOf maxLoad maxSize) :
    ∃ table', ReturnsTo (fun fuel => table.rehash maxLoad bp fuel count) table' ∧
      table'.values = table.values ∧ Sound maxLoad bp table' := by
  simp only [Table.rehash]
  split_ifs
  · exact h.resize_returns hLoad hFew hLow hRequest
  · exact ⟨table, ReturnsTo.pure _, rfl, h⟩

theorem clear : Sound maxLoad bp table.clear := by
  refine ⟨?_, h.capacious, Multiset.nodup_zero⟩
  rcases h.indexed with hIndexed | ⟨_, hNone, hShifts⟩
  · exact Or.inl (hIndexed.toShaped.indexed bp [])
  · exact Or.inr ⟨rfl, hNone, hShifts⟩

end Sound

/-- An insertion into a table with room finds the key's pair, or appends one. -/
theorem Indexed.emplaceInto_returns (h : Indexed bp table table.values.length)
    (hRoom : table.values.length + 1 < table.numBuckets) (key : K) (val : V) :
    (∃ (v : Nat) (hv : v < table.values.length), bp.cmprKeys key table.values[v].1 = true ∧
      ReturnsTo (fun fuel => table.emplaceInto bp fuel key val) (table, v, false)) ∨
    ((∀ pair ∈ table.values, bp.cmprKeys key pair.1 = false) ∧
      (table.values.length + 1 ≤ pairLimit → ∃ buckets,
        ReturnsTo (fun fuel => table.emplaceInto bp fuel key val)
          ({ table with values := table.values ++ [(key, val)], buckets },
            table.values.length, true) ∧
        Indexed bp { table with values := table.values ++ [(key, val)], buckets }
          (table.values.length + 1))) := by
  obtain ⟨cursor, j, hCursor, hMissed, hCases⟩ :=
    h.probe_returns (Missed.first h.toShaped bp key 0) (Nat.le_refl 0) (Nat.zero_le 2)
  rcases hCases with hHit | ⟨hHit, hRank⟩
  · obtain ⟨pair, hPair, hKey, hv⟩ := h.hit_spec hMissed hHit
    refine Or.inl ⟨_, hv, ?_, ?_⟩
    · rw [List.getElem?_eq_getElem hv, Option.some.injEq] at hPair
      rwa [hPair]
    · apply hCursor.bind
      simp only [hHit, if_true]
      exact ReturnsTo.pure _
  · refine Or.inr ⟨h.absent_all hMissed hRank, fun hFew => ?_⟩
    let longer : Table K V := { table with values := table.values ++ [(key, val)] }
    have hLonger : Indexed bp longer table.values.length :=
      h.congr_values (fun v hv => by rw [hashAt, hashAt, List.getElem?_append_left hv]) (by simp)
    obtain ⟨buckets, hReturns, hIndexed⟩ := hLonger.placeAndShiftUp_returns
      List.getElem?_concat_length hMissed.sought hRank.le hFew hRoom
    have hWidth : (table.values ++ [(key, val)]).length - 1 = table.values.length := by simp
    have hSmall : table.values.length % 2 ^ 32 = table.values.length := by
      simp only [pairLimit] at hFew
      exact Nat.mod_eq_of_lt (by omega)
    refine ⟨buckets, ?_, hIndexed⟩
    apply hCursor.bind
    simp only [hHit, Bool.false_eq_true, if_false, Table.doPlaceElement, hWidth, hSmall]
    exact hReturns.bind (ReturnsTo.pure _)

end HashBench.UnorderedDense
