import HashBench.UnorderedDense.Runs

/-! Calls that erase or insert many pairs at once. -/
namespace HashBench.UnorderedDense

open Search While RobinHood Dense

variable {K V : Type} {maxLoad : ℚ} {bp : Blueprint K V} {table : Table K V}

namespace Sound

variable (h : Sound maxLoad bp table)
include h

/-- `erase( iterator )` of a pair of the table. -/
theorem erase_returns {v : Nat} (hv : v < table.values.length) :
    ∃ buckets, ReturnsTo (fun fuel => table.erase bp fuel v)
        { table with values := swapRemove table.values v, buckets } ∧
      Sound maxLoad bp { table with values := swapRemove table.values v, buckets } := by
  rcases h.indexed with hIndexed | ⟨hEmpty, _⟩
  · obtain ⟨buckets, hReturns, hIndexed'⟩ := hIndexed.erase_returns hv
    refine ⟨buckets, hReturns, Or.inl ?_, h.capacious, ?_⟩
    · rw [← length_swapRemove table.values v] at hIndexed'
      exact hIndexed'
    · have hNodup := h.nodup
      rw [← cons_swapRemove hv, Blueprint.keyClasses_cons, Multiset.nodup_cons] at hNodup
      exact hNodup.2
  · simp [hEmpty] at hv

/-- The table is the finite map of the pairs that it holds. -/
theorem exists_serves : ∃ found, Serves bp table found := by
  obtain ⟨found, hFinds⟩ := Blueprint.exists_finds h.nodup
  exact ⟨found, (Stores.mk h hFinds).serves⟩

/-- Erasing from the left moves pairs from the end into the range. -/
theorem eraseLeft_returns {first count : Nat} (hCount : first + 2 * count ≤ table.values.length) :
    ∃ table', ReturnsTo (fun fuel => (List.range' first count).foldlM
        (fun table idx => table.erase bp fuel idx) table) table' ∧
      Sound maxLoad bp table' ∧ table'.values.length = table.values.length - count ∧
      (((table.values.drop first).take count : List (K × V)) : Multiset (K × V)) + table'.values =
        table.values ∧
      ∀ j, first + count ≤ j → j < table.values.length - count →
        table'.values[j]? = table.values[j]? := by
  induction count with
  | zero =>
      refine ⟨table, ReturnsTo.pure _, h, rfl, ?_, fun j _ _ => rfl⟩
      simp
  | succ count ih =>
      obtain ⟨table', hReturns, hSound, hLength, hRemoved, hSame⟩ := ih (by omega)
      have hv : first + count < table'.values.length := by omega
      obtain ⟨buckets, hErase, hSound'⟩ := hSound.erase_returns hv
      have hLength' := length_swapRemove table'.values (first + count)
      refine ⟨_, ?_, hSound', ?_, ?_, fun j hLow hHigh => ?_⟩
      · simp only [List.range'_concat, Nat.one_mul, List.foldlM_append, List.foldlM_cons,
          List.foldlM_nil]
        exact hReturns.bind (hErase.bind (ReturnsTo.pure _))
      · simp only [hLength']
        omega
      · have hAt := hSame (first + count) (Nat.le_refl _) (by omega)
        have hTake : (table.values.drop first).take (count + 1) =
            (table.values.drop first).take count ++ [table'.values[first + count]] := by
          rw [List.take_add_one, List.getElem?_drop, ← hAt, List.getElem?_eq_getElem hv]
          rfl
        rw [hTake, ← Multiset.coe_add, Multiset.add_assoc, ← hRemoved, ← cons_swapRemove hv]
        rfl
      · simp only
        rw [getElem?_swapRemove_of_ne (by omega) (by omega), hSame j (by omega) (by omega)]

/-- Erasing from the right only drops the last pairs. -/
theorem eraseRight_returns {mid count : Nat} (hCount : count = 0 ∨ table.values.length = mid + count) :
    ∃ table', ReturnsTo (fun fuel => (List.range' mid count).reverse.foldlM
        (fun table idx => table.erase bp fuel idx) table) table' ∧
      Sound maxLoad bp table' ∧ table'.values = table.values.take (table.values.length - count) := by
  induction count generalizing table with
  | zero => exact ⟨table, ReturnsTo.pure _, h, by simp⟩
  | succ count ih =>
      have hLength := hCount.resolve_left (Nat.succ_ne_zero count)
      have hv : mid + count < table.values.length := by omega
      obtain ⟨buckets, hErase, hSound⟩ := h.erase_returns hv
      have hLast : swapRemove table.values (mid + count) = table.values.dropLast := by
        rw [← swapRemove_last, hLength]
        rfl
      rw [hLast] at hErase hSound
      obtain ⟨table', hReturns, hSound', hValues⟩ := ih hSound (Or.inr (by simp [hLength]))
      refine ⟨table', ?_, hSound', ?_⟩
      · simp only [List.range'_concat, Nat.one_mul, List.reverse_append, List.reverse_singleton,
          List.singleton_append, List.foldlM_cons]
        exact hErase.bind hReturns
      · rw [hValues, List.length_dropLast, List.dropLast_eq_take, List.take_take]
        congr 1
        omega

/-- `erase( first, last )` erases exactly the pairs of the range, from whichever end. -/
theorem eraseRange_returns {first last : Nat} (hFirst : first ≤ last)
    (hLast : last ≤ table.values.length) :
    ∃ table', ReturnsTo (fun fuel => table.eraseRange bp fuel first last) table' ∧
      Sound maxLoad bp table' ∧
      (((table.values.drop first).take (last - first) : List (K × V)) : Multiset (K × V)) +
        table'.values = table.values := by
  let count := min (last - first) (table.values.length - last)
  obtain ⟨left, hLeft, hSound, hLength, hRemoved, hSame⟩ :=
    h.eraseLeft_returns (by omega : first + 2 * count ≤ table.values.length)
  obtain ⟨table', hRight, hSound', hValues⟩ := hSound.eraseRight_returns
    (by omega : last - (first + count) = 0 ∨
      left.values.length = first + count + (last - (first + count)))
  refine ⟨table', ?_, hSound', ?_⟩
  · simp only [Table.eraseRange, Nat.add_sub_cancel_left]
    exact hLeft.bind hRight
  · have hSplit : (table.values.drop first).take (last - first) =
        (table.values.drop first).take count ++
          left.values.drop (left.values.length - (last - (first + count))) := by
      rcases Nat.le_total (last - first) (table.values.length - last) with hShort | hLong
      · have hCount : count = last - first := min_eq_left hShort
        rw [show last - (first + count) = 0 by omega, hCount, Nat.sub_zero, List.drop_length,
          List.append_nil]
      · have hCount : count = table.values.length - last := min_eq_right hLong
        rw [show last - first = count + (last - (first + count)) by omega, List.take_add,
          List.drop_drop]
        congr 1
        apply List.ext_getElem?
        intro i
        rw [List.getElem?_take, List.getElem?_drop, List.getElem?_drop,
          show left.values.length - (last - (first + count)) + i = first + count + i by omega]
        split_ifs with hi
        · exact (hSame _ (by omega) (by omega)).symm
        · exact (List.getElem?_eq_none (by omega)).symm
    rw [hSplit, ← Multiset.coe_add, Multiset.add_assoc, ← hRemoved, hValues, Multiset.coe_add,
      Multiset.coe_eq_coe.mpr List.perm_append_comm, List.take_append_drop]

/-- One round of `std::erase_if` leaves no pair to erase behind the index. -/
theorem eraseIfAt_returns (pred : K × V → Bool) {n : Nat} (hn : n < table.values.length)
    (hKept : ∀ v (hv : v < table.values.length), n < v → pred table.values[v] = false) :
    ∃ table', ReturnsTo (fun fuel => Table.eraseIfAt bp pred fuel table n) table' ∧
      Sound maxLoad bp table' ∧ n ≤ table'.values.length ∧
      (∀ v (hv : v < table'.values.length), n ≤ v → pred table'.values[v] = false) ∧
      (table'.values : Multiset (K × V)).filter (fun pair => (!pred pair) = true) =
        (table.values : Multiset (K × V)).filter fun pair => (!pred pair) = true := by
  simp only [Table.eraseIfAt, List.getElem?_eq_getElem hn]
  cases hPred : pred table.values[n] with
  | false =>
      refine ⟨table, ?_, h, Nat.le_of_lt hn, fun v hv hLe => ?_, rfl⟩
      · simp only [Option.bind_eq_bind, Option.bind_some, hPred, Bool.false_eq_true, if_false]
        exact ReturnsTo.pure _
      · rcases Nat.lt_or_eq_of_le hLe with hLess | rfl
        · exact hKept v hv hLess
        · exact hPred
  | true =>
      obtain ⟨buckets, hErase, hErased⟩ := h.erase_returns hn
      have hLength := length_swapRemove table.values n
      refine ⟨_, ?_, hErased, ?_, fun v hv hLe => ?_, ?_⟩
      · simp only [Option.bind_eq_bind, Option.bind_some, hPred, if_true]
        exact hErase
      · simp only [hLength]
        omega
      · -- Behind the index lies what was behind it before.
        obtain ⟨u, hu, hLess, hSame⟩ : ∃ u, ∃ hu : u < table.values.length, n < u ∧
            (swapRemove table.values n)[v] = table.values[u] := by
          simp only [hLength] at hv
          rcases Nat.lt_or_eq_of_le hLe with hLess | rfl
          · have hAt := getElem?_swapRemove_of_ne hv hLess.ne'
            rw [List.getElem?_eq_getElem (by omega), List.getElem?_eq_getElem (by omega),
              Option.some.injEq] at hAt
            exact ⟨v, by omega, hLess, hAt⟩
          · have hAt := getElem?_swapRemove_self hv
            rw [List.getElem?_eq_getElem (by omega), List.getLast?_eq_getElem?,
              List.getElem?_eq_getElem (by omega), Option.some.injEq] at hAt
            exact ⟨table.values.length - 1, by omega, by omega, hAt⟩
        simp only [hSame]
        exact hKept u hu hLess
      · rw [← cons_swapRemove hn, Multiset.filter_cons_of_neg _ (by simp [hPred])]

/-- `std::erase_if` looks at every pair once although erasing moves the last pair
into the hole. -/
theorem eraseIf_returns (pred : K × V → Bool) :
    ∃ table', ReturnsTo (fun fuel => table.eraseIf bp fuel pred) table' ∧
      Sound maxLoad bp table' ∧
      (table'.values : Multiset (K × V)) =
        (table.values : Multiset (K × V)).filter fun pair => (!pred pair) = true := by
  have hLoop : ∀ n (table : Table K V), Sound maxLoad bp table → n ≤ table.values.length →
      (∀ v (hv : v < table.values.length), n ≤ v → pred table.values[v] = false) →
      ∃ table', ReturnsTo (fun fuel =>
          (List.range n).reverse.foldlM (Table.eraseIfAt bp pred fuel) table) table' ∧
        Sound maxLoad bp table' ∧
        (table'.values : Multiset (K × V)) =
          (table.values : Multiset (K × V)).filter fun pair => (!pred pair) = true := by
    intro n
    induction n with
    | zero =>
        intro table hSound _ hKept
        refine ⟨table, ReturnsTo.pure _, hSound, ?_⟩
        refine (Multiset.filter_eq_self.mpr fun pair hPair => ?_).symm
        obtain ⟨v, hv, rfl⟩ := List.mem_iff_getElem.mp (Multiset.mem_coe.mp hPair)
        simp [hKept v hv (Nat.zero_le v)]
    | succ n ih =>
        intro table hSound hn hKept
        obtain ⟨table', hRound, hSound', hn', hKept', hFilter⟩ :=
          hSound.eraseIfAt_returns pred hn hKept
        obtain ⟨table'', hReturns, hSound'', hValues⟩ := ih table' hSound' hn' hKept'
        refine ⟨table'', ?_, hSound'', hValues.trans hFilter⟩
        simp only [List.range_succ, List.reverse_append, List.reverse_singleton,
          List.singleton_append, List.foldlM_cons]
        exact hRound.bind hReturns
  exact hLoop _ table h (Nat.le_refl _) fun v hv hLe => absurd hv (Nat.not_lt.mpr hLe)

end Sound

theorem dropAt_eq {v : Nat} (hv : v < table.values.length) :
    table.dropAt v = some { table with values := swapRemove table.values v } := by
  have hBack : table.values.getLast? = some table.values[table.values.length - 1] := by
    rw [List.getLast?_eq_getElem?, List.getElem?_eq_getElem]
  simp [Table.dropAt, hBack, swapRemove_eq]

/-- The loop of `replace` keeps one pair of every key of the container. -/
theorem Indexed.replaceFrom_returns {count : Nat} (h : Indexed bp table count)
    (hFew : table.values.length ≤ pairLimit) (hRoom : table.values.length < table.numBuckets)
    (hNodup : (bp.keyClasses (table.values.take count : Multiset (K × V))).Nodup) :
    ∃ values buckets, ReturnsTo (fun fuel => Table.replaceFrom bp fuel table count)
        { table with values, buckets } ∧
      Indexed bp { table with values, buckets } values.length ∧
      (bp.keyClasses (values : Multiset (K × V))).Nodup ∧
      (values : Multiset (K × V)) ≤ table.values ∧
      ∀ pair ∈ table.values, ∃ pair' ∈ values, bp.cmprKeys pair.1 pair'.1 = true := by
  induction hLeft : table.values.length - count generalizing table count with
  | zero =>
      have hEnd : count = table.values.length := Nat.le_antisymm h.count_le (by omega)
      have hWidth : table.values.length % 2 ^ 32 = table.values.length := by
        simp only [pairLimit] at hFew
        exact Nat.mod_eq_of_lt (by omega)
      refine ⟨table.values, table.buckets, ReturnsTo.of_succ ?_, hEnd ▸ h, ?_, le_rfl,
        fun pair hPair => ⟨pair, hPair, bp.cmprKeys_refl _⟩⟩
      · simp only [Table.replaceFrom, hWidth, hEnd, if_true]
        exact ReturnsTo.pure _
      · rwa [hEnd, List.take_length] at hNodup
  | succ left ih =>
      have hv : count < table.values.length := by omega
      have hPair : table.values[count]? = some table.values[count] := List.getElem?_eq_getElem hv
      have hGoes : count ≠ table.values.length % 2 ^ 32 := by
        simp only [pairLimit] at hFew
        rw [Nat.mod_eq_of_lt (by omega)]
        exact hv.ne
      obtain ⟨cursor, j, hCursor, hMissed, hCases⟩ := h.probe_returns
        (Missed.first h.toShaped bp table.values[count].1 0) (Nat.le_refl 0) (Nat.zero_le 2)
      rcases hCases with hHit | ⟨hHit, hRank⟩
      · -- A pair of the key is kept already, and this one is dropped.
        obtain ⟨kept, hKept, hKey, hBefore⟩ := h.hit_spec hMissed hHit
        have hSame (v : Nat) (hLess : v < count) :
            (swapRemove table.values count)[v]? = table.values[v]? :=
          getElem?_swapRemove_of_ne (by omega) hLess.ne
        have hLength := length_swapRemove table.values count
        have hDropped : Indexed bp { table with values := swapRemove table.values count } count :=
          h.congr_values (fun v hLess => by rw [hashAt, hashAt, hSame v hLess]) (by omega)
        have hTake : (swapRemove table.values count).take count = table.values.take count := by
          apply List.ext_getElem?
          intro v
          rw [List.getElem?_take, List.getElem?_take]
          split_ifs with hLess
          · exact hSame v hLess
          · rfl
        obtain ⟨values, buckets, hReturns, hIndexed, hDistinct, hLe, hCovers⟩ := ih hDropped
          (by simp only [hLength]; omega) (by simp only [hLength]; omega)
          (by simpa only [hTake] using hNodup) (by simp only [hLength]; omega)
        have hCons := cons_swapRemove hv
        refine ⟨values, buckets, ReturnsTo.of_succ ?_, hIndexed, hDistinct,
          hLe.trans (hCons ▸ Multiset.le_cons_self _ _), fun pair hMem => ?_⟩
        · simp only [Table.replaceFrom, if_neg hGoes, hPair]
          apply hCursor.bind
          simp only [hHit, if_true, dropAt_eq hv]
          exact hReturns
        · rw [← Multiset.mem_coe, ← hCons, Multiset.mem_cons] at hMem
          rcases hMem with rfl | hMem
          · rw [← hSame _ hBefore] at hKept
            obtain ⟨pair', hPair', hKey'⟩ := hCovers kept (List.mem_of_getElem? hKept)
            exact ⟨pair', hPair', bp.cmprKeys_trans hKey hKey'⟩
          · exact hCovers pair hMem
      · obtain ⟨buckets, hPlace, hIndexed⟩ :=
          h.placeAndShiftUp_returns hPair hMissed.sought hRank.le (by omega) (by omega)
        have hTake : table.values.take (count + 1) =
            table.values.take count ++ [table.values[count]] :=
          (List.take_concat_get' _ _ hv).symm
        have hNodup' : (bp.keyClasses (table.values.take (count + 1) : Multiset (K × V))).Nodup := by
          rw [hTake, ← Multiset.coe_add, Multiset.add_comm, Multiset.coe_singleton,
            Multiset.singleton_add, Blueprint.keyClasses_cons, Multiset.nodup_cons]
          refine ⟨notMem_of_absent fun pair hMem => ?_, hNodup⟩
          obtain ⟨v, hLess, rfl⟩ := List.mem_iff_getElem.mp hMem
          rw [List.length_take] at hLess
          rw [List.getElem_take]
          exact h.absent hMissed hRank (by omega) (List.getElem?_eq_getElem (by omega))
        obtain ⟨values, buckets', hReturns, hRest⟩ :=
          ih hIndexed hFew hRoom hNodup' (by simp only; omega)
        refine ⟨values, buckets', ReturnsTo.of_succ ?_, hRest⟩
        simp only [Table.replaceFrom, if_neg hGoes, hPair]
        apply hCursor.bind
        simp only [hHit, Bool.false_eq_true, if_false]
        exact hPlace.bind hReturns

/-- `replace` keeps one pair of every key of the container, whatever the table held. -/
theorem Sound.replace_returns (h : Sound maxLoad bp table) (hLow : 1 / 256 ≤ maxLoad)
    (hLoad : maxLoad < 1) {container : List (K × V)} (hFew : container.length ≤ pairLimit) :
    ∃ table', ReturnsTo (fun fuel => table.replace maxLoad bp fuel container) table' ∧
      Sound maxLoad bp table' ∧ (table'.values : Multiset (K × V)) ≤ container ∧
      ∀ pair ∈ container, ∃ pair' ∈ table'.values, bp.cmprKeys pair.1 pair'.1 = true := by
  obtain ⟨resized, hResized, hShaped, hCapacious, hRoom⟩ :
      ∃ resized, table.resizedFor maxLoad container.length = some resized ∧ Shaped resized ∧
        Capacious maxLoad resized ∧ container.length < resized.numBuckets := by
    have hInitial : 32 ≤ initialShifts := by simp [initialShifts]
    obtain ⟨hPos, hLt, hRoom⟩ := calcShiftsFrom_spec (hFew.trans (pairLimit_le hLow)) hInitial
    rw [← calcShiftsForSize] at hPos hLt hRoom
    have hLess := capacityOf_lt hLoad
      (calcNumBuckets_pos (calcShiftsForSize maxLoad container.length))
    simp only [Table.resizedFor]
    split_ifs with hSmall
    · rw [Table.allocateBucketsFromShift, if_neg (Nat.ne_zero_of_lt hPos)]
      exact ⟨_, rfl, ⟨Nat.zero_lt_of_lt hPos, hLt.trans_lt (by simp [initialShifts]), rfl⟩, rfl,
        hRoom.trans_lt hLess⟩
    · rw [not_or, not_lt] at hSmall
      rcases h.indexed with hIndexed | ⟨_, hNone, _⟩
      · refine ⟨table, rfl, hIndexed.toShaped, h.capacious, hRoom.trans_lt (hLess.trans_le ?_)⟩
        rw [hIndexed.numBuckets_eq]
        exact calcNumBuckets_anti hSmall.2
      · exact absurd hNone hSmall.1
  have hMax : ¬ maxSize < container.length := by
    simp only [pairLimit, maxSize] at hFew ⊢
    omega
  obtain ⟨values, buckets, hReturns, hIndexed, hNodup, hLe, hCovers⟩ :=
    (hShaped.indexed bp container).replaceFrom_returns hFew hRoom Multiset.nodup_zero
  refine ⟨_, ?_, ⟨Or.inl hIndexed, hCapacious, hNodup⟩, hLe, hCovers⟩
  simp only [Table.replace, if_neg hMax, hResized]
  exact hReturns

section Runs

variable {ops : List (StdOp K V)}

/-- Whichever end it erases from, `erase( first, last )` erases exactly the range. -/
theorem unordered_dense_eraseRange (hLow : 1 / 256 ≤ maxLoad) (hLoad : maxLoad < 1)
    (hFew : bp.AtMost bp.applyStd pairLimit ops) (hFit : ∀ op ∈ ops, RequestFits maxLoad op) :
    ∃ table, ReturnsTo (fun fuel => run maxLoad bp fuel ops) table ∧
      Serves bp table (bp.stdMapOf ops) ∧
      ∀ first last, first ≤ last → last ≤ table.values.length →
        ∃ table' found, ReturnsTo (fun fuel => table.eraseRange bp fuel first last) table' ∧
          Serves bp table' found ∧
          (((table.values.drop first).take (last - first) : List (K × V)) : Multiset (K × V)) +
            table'.values = table.values := by
  obtain ⟨table, hRun, hStores⟩ := run_returns hLow hLoad hFew hFit
  refine ⟨table, hRun, hStores.serves, fun first last hFirst hLast => ?_⟩
  obtain ⟨table', hReturns, hSound, hErased⟩ := hStores.eraseRange_returns hFirst hLast
  obtain ⟨found, hServes⟩ := hSound.exists_serves
  exact ⟨table', found, hReturns, hServes, hErased⟩

theorem unordered_dense_eraseRange_sample : ∃ table, ReturnsTo (fun fuel =>
      run (7 / 8) (Blueprint.ofEq BitVec.toNat 0) fuel sample) table ∧
    ∀ last ≤ table.values.length, ∃ table', ReturnsTo (fun fuel =>
      table.eraseRange (Blueprint.ofEq BitVec.toNat 0) fuel 0 last) table' := by
  obtain ⟨table, hRun, _, hErase⟩ := unordered_dense_eraseRange (by norm_num) (by norm_num)
    atMost_sample requestFits_sample
  refine ⟨table, hRun, fun last hLast => ?_⟩
  obtain ⟨table', _, hReturns, _⟩ := hErase 0 last (Nat.zero_le last) hLast
  exact ⟨table', hReturns⟩

/-- `std::erase_if` leaves exactly the pairs that are not to be erased. -/
theorem unordered_dense_eraseIf (hLow : 1 / 256 ≤ maxLoad) (hLoad : maxLoad < 1)
    (hFew : bp.AtMost bp.applyStd pairLimit ops) (hFit : ∀ op ∈ ops, RequestFits maxLoad op) :
    ∃ table, ReturnsTo (fun fuel => run maxLoad bp fuel ops) table ∧
      ∀ pred, ∃ table', ReturnsTo (fun fuel => table.eraseIf bp fuel pred) table' ∧
        Serves bp table' fun key => (bp.stdMapOf ops key).filter fun pair => !pred pair := by
  obtain ⟨table, hRun, hStores⟩ := run_returns hLow hLoad hFew hFit
  refine ⟨table, hRun, fun pred => ?_⟩
  obtain ⟨table', hReturns, hSound, hKept⟩ := hStores.eraseIf_returns pred
  have hFinds := hStores.finds.filter fun pair => !pred pair
  rw [← hKept] at hFinds
  exact ⟨table', hReturns, (Stores.mk hSound hFinds).serves⟩

theorem unordered_dense_eraseIf_sample : ∃ table table', ReturnsTo (fun fuel =>
      run (7 / 8) (Blueprint.ofEq BitVec.toNat 0) fuel sample) table ∧
    ReturnsTo (fun fuel =>
      table.eraseIf (Blueprint.ofEq BitVec.toNat 0) fuel fun pair => pair.1 == 9) table' := by
  obtain ⟨table, hRun, hErase⟩ := unordered_dense_eraseIf (by norm_num) (by norm_num)
    atMost_sample requestFits_sample
  obtain ⟨table', hReturns, _⟩ := hErase fun pair => pair.1 == 9
  exact ⟨table, table', hRun, hReturns⟩

/-- `replace` builds the index of a container with repeated keys: one of the pairs
of every key stays, and nothing of what the table held. -/
theorem unordered_dense_replace (hLow : 1 / 256 ≤ maxLoad) (hLoad : maxLoad < 1)
    (hFew : bp.AtMost bp.applyStd pairLimit ops) (hFit : ∀ op ∈ ops, RequestFits maxLoad op)
    {container : List (K × V)} (hContainer : container.length ≤ pairLimit) :
    ∃ table table' found, ReturnsTo (fun fuel => run maxLoad bp fuel ops) table ∧
      ReturnsTo (fun fuel => table.replace maxLoad bp fuel container) table' ∧
      Serves bp table' found ∧ (table'.values : Multiset (K × V)) ≤ container ∧
      ∀ key, (found key).isSome ↔ ∃ pair ∈ container, bp.cmprKeys pair.1 key = true := by
  obtain ⟨table, hRun, hStores⟩ := run_returns hLow hLoad hFew hFit
  obtain ⟨table', hReturns, hSound, hLe, hCovers⟩ :=
    hStores.replace_returns hLow hLoad hContainer
  obtain ⟨found, hFinds⟩ := Blueprint.exists_finds hSound.nodup
  refine ⟨table, table', found, hRun, hReturns, (Stores.mk hSound hFinds).serves, hLe,
    fun key => ?_⟩
  rw [hFinds.isSome_iff, Blueprint.mem_keyClasses]
  constructor
  · rintro ⟨pair, hPair, hKey⟩
    exact ⟨pair, Multiset.mem_coe.mp (Multiset.mem_of_le hLe hPair), hKey⟩
  · rintro ⟨pair, hPair, hKey⟩
    obtain ⟨pair', hPair', hKey'⟩ := hCovers pair hPair
    exact ⟨pair', hPair', bp.cmprKeys_trans (bp.cmprKeys_symm hKey') hKey⟩

theorem unordered_dense_replace_sample : ∃ table table', ReturnsTo (fun fuel =>
      run (7 / 8) (Blueprint.ofEq BitVec.toNat 0) fuel sample) table ∧
    ReturnsTo (fun fuel => table.replace (7 / 8) (Blueprint.ofEq BitVec.toNat 0) fuel
      [(1, 2), (2, 3), (1, 4), (5, 1), (2, 7), (9, 9)]) table' := by
  obtain ⟨table, table', _, hRun, hReturns, _⟩ := unordered_dense_replace (by norm_num)
    (by norm_num) atMost_sample requestFits_sample
    (show [(1, 2), (2, 3), (1, 4), (5, 1), (2, 7), (9, 9)].length ≤ pairLimit by simp [pairLimit])
  exact ⟨table, table', hRun, hReturns⟩

end Runs

section Equality

variable {other : Table K V} {found found' : K → Option (K × V)}

theorem equalsFrom_returns [DecidableEq V] (h : Serves bp table found) (entries : List (K × V)) :
    ReturnsTo (fun fuel => table.equalsFrom bp fuel entries)
      (decide (∀ entry ∈ entries, (found entry.1).map Prod.snd = some entry.2)) := by
  induction entries with
  | nil => simpa [Table.equalsFrom] using ReturnsTo.pure true
  | cons entry rest ih =>
      obtain ⟨it, hReturns, hFound⟩ := h.finds entry.1
      have hFails (hNot : (found entry.1).map Prod.snd ≠ some entry.2) :
          decide (∀ entry' ∈ entry :: rest, (found entry'.1).map Prod.snd = some entry'.2) = false :=
        decide_eq_false fun hAll => hNot (hAll entry List.mem_cons_self)
      simp only [Table.equalsFrom]
      apply hReturns.bind
      rw [hFound]
      cases hPair : found entry.1 with
      | none =>
          rw [hFails (by simp [hPair])]
          exact ReturnsTo.pure false
      | some pair =>
          by_cases hSame : entry.2 = pair.2
          · have hRest : decide (∀ entry' ∈ entry :: rest,
                (found entry'.1).map Prod.snd = some entry'.2) =
                decide (∀ entry' ∈ rest, (found entry'.1).map Prod.snd = some entry'.2) := by
              rw [decide_eq_decide, List.forall_mem_cons]
              simp [hPair, hSame]
            rw [hRest]
            simp only [if_pos hSame]
            exact ih
          · rw [hFails (by simp [hPair, Ne.symm hSame])]
            simp only [if_neg hSame]
            exact ReturnsTo.pure false

/-- A table that holds every pair of another with as many holds nothing else. -/
theorem Serves.eq_of_covers (h : Serves bp table found) (h' : Serves bp other found')
    (hLength : table.values.length = other.values.length)
    (hCovers : ∀ entry ∈ other.values, (found entry.1).map Prod.snd = some entry.2) (key : K) :
    (found key).map Prod.snd = (found' key).map Prod.snd := by
  have hFinds : bp.Finds (table.values : Multiset (K × V)) found := h.lists.2
  have hFinds' : bp.Finds (other.values : Multiset (K × V)) found' := h'.lists.2
  have hKeys : bp.keyClasses (other.values : Multiset (K × V)) =
      bp.keyClasses (table.values : Multiset (K × V)) := by
    apply Multiset.eq_of_le_of_card_le
    · rw [Multiset.le_iff_subset h'.lists.nodup]
      intro c hc
      obtain ⟨entry, hEntry, rfl⟩ := Multiset.mem_map.mp hc
      apply hFinds.isSome_iff.mp
      rw [← Option.isSome_map (f := Prod.snd), hCovers entry (Multiset.mem_coe.mp hEntry)]
      rfl
    · simp [Blueprint.keyClasses, hLength]
  cases hFound' : found' key with
  | none =>
      have hNone : (found key).isSome = false := by
        rw [← Bool.not_eq_true, hFinds.isSome_iff, ← hKeys, ← hFinds'.isSome_iff, hFound']
        simp
      rw [Option.isSome_eq_false_iff, Option.isNone_iff_eq_none] at hNone
      simp [hNone]
  | some entry =>
      obtain ⟨hEntry, hKey⟩ := (hFinds' key entry).mp hFound'
      rw [← hFinds.congr hKey, hCovers entry (Multiset.mem_coe.mp hEntry)]
      rfl

/-- `operator==` decides whether two tables are the same map, whatever calls,
hash codes and capacities have led to their layouts. -/
theorem unordered_dense_equals [DecidableEq V] (hLow : 1 / 256 ≤ maxLoad) (hLoad : maxLoad < 1)
    {ops ops' : List (StdOp K V)} (hFew : bp.AtMost bp.applyStd pairLimit ops)
    (hFit : ∀ op ∈ ops, RequestFits maxLoad op) (hFew' : bp.AtMost bp.applyStd pairLimit ops')
    (hFit' : ∀ op ∈ ops', RequestFits maxLoad op) :
    ∃ table other result, ReturnsTo (fun fuel => run maxLoad bp fuel ops) table ∧
      ReturnsTo (fun fuel => run maxLoad bp fuel ops') other ∧
      ReturnsTo (fun fuel => table.equals bp fuel other) result ∧
      (result = true ↔
        ∀ key, (bp.stdMapOf ops key).map Prod.snd = (bp.stdMapOf ops' key).map Prod.snd) := by
  obtain ⟨table, hRun, hStores⟩ := run_returns hLow hLoad hFew hFit
  obtain ⟨other, hRun', hStores'⟩ := run_returns hLow hLoad hFew' hFit'
  have hServes := hStores.serves
  have hServes' := hStores'.serves
  simp only [Table.equals]
  by_cases hLength : table.values.length = other.values.length
  · refine ⟨table, other, decide (∀ entry ∈ other.values,
      (bp.stdMapOf ops entry.1).map Prod.snd = some entry.2), hRun, hRun', ?_, ?_⟩
    · simp only [ne_eq, hLength, not_true, if_false]
      exact equalsFrom_returns hServes other.values
    · rw [decide_eq_true_iff]
      constructor
      · exact hServes.eq_of_covers hServes' hLength
      · intro hSame entry hEntry
        rw [hSame entry.1, (hStores'.finds entry.1 entry).mpr
          ⟨Multiset.mem_coe.mpr hEntry, bp.cmprKeys_refl _⟩]
        rfl
  · refine ⟨table, other, false, hRun, hRun', ?_, ?_⟩
    · simp only [ne_eq, hLength, not_false_eq_true, if_true]
      exact ReturnsTo.pure false
    · refine ⟨fun hFalse => (Bool.false_ne_true hFalse).elim, fun hSame => (hLength ?_).elim⟩
      have hHolds : bp.Holds (bp.keyClasses (other.values : Multiset (K × V)))
          fun key => (bp.stdMapOf ops key).isSome := by
        intro key
        have hSome := congrArg Option.isSome (hSame key)
        rw [Option.isSome_map, Option.isSome_map] at hSome
        simp only [hSome]
        exact hStores'.finds.holds key
      have hKeys := hStores.finds.holds.unique hHolds hStores.nodup hStores'.nodup
      simpa [Blueprint.keyClasses] using congrArg Multiset.card hKeys

theorem unordered_dense_equals_sample : ∃ table other, ReturnsTo (fun fuel =>
      run (7 / 8) (Blueprint.ofEq BitVec.toNat 0) fuel sample) table ∧
    ReturnsTo (fun fuel => run (7 / 8) (Blueprint.ofEq BitVec.toNat 0) fuel []) other ∧
    ReturnsTo (fun fuel => table.equals (Blueprint.ofEq BitVec.toNat 0) fuel other) false := by
  have hEmpty : (Blueprint.ofEq BitVec.toNat 0).AtMost (Blueprint.ofEq BitVec.toNat 0).applyStd
      pairLimit ([] : List (StdOp (BitVec 32) Nat)) :=
    Blueprint.AtMost.of_length (Blueprint.applyStd_addsOne _) (Nat.zero_le _)
  obtain ⟨table, other, result, hRun, hRun', hReturns, hResult⟩ := unordered_dense_equals
    (by norm_num) (by norm_num) atMost_sample requestFits_sample hEmpty
    fun op hOp => (List.not_mem_nil hOp).elim
  have hDiffer : result = false := by
    rw [← Bool.not_eq_true, hResult]
    intro hSame
    have hAt := hSame 9
    revert hAt
    decide
  exact ⟨table, other, hRun, hRun', hDiffer ▸ hReturns⟩

end Equality

end HashBench.UnorderedDense
