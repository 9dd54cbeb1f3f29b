import HashBench.Library.Dense
import HashBench.UnorderedDense.Placing

/-! The index shrinks: buckets are shifted down over the one of a pair, and the
last pair of the vector takes the place of the pair. -/
namespace HashBench.UnorderedDense

open Search While RobinHood Dense

variable {K V : Type} {bp : Blueprint K V} {table : Table K V} {count : Nat}

/-- The loops that look for the bucket of an index find it on the path of its key. -/
theorem seek_returns (cond : Nat → Bool) (hShaped : Shaped table)
    (hOrdered : InOrder bp table table.buckets) {v : Nat} (hv : v ∈ indices table table.buckets)
    {pair : K × V} (hPair : table.values[v]? = some pair)
    (hCond : ∀ b, cond b = true ↔ (table.buckets b).valueIdx ≠ v) :
    ∃ p < table.numBuckets, ReturnsTo (fun fuel => loop cond table.next fuel
        (table.bucketIdxFromHash (mixedHash bp pair.1))) p ∧
      (table.buckets p).distAndFingerprint ≠ 0 ∧ (table.buckets p).valueIdx = v := by
  have hn := hShaped.numBuckets_pos
  have hHash : hashAt bp table.values v = mixedHash bp pair.1 := hashAt_eq hPair
  obtain ⟨p, hp, hTaken, rfl⟩ := mem_items.mp hv
  obtain ⟨j, hRank, hAt⟩ := hOrdered.placed p hp hTaken
  have hLow := (distAndFingerprint_bounds (mixedHash bp pair.1)).1
  have hPos := distIncrement_pos
  simp only [Bucket.cell] at hTaken hPair hCond hHash hRank hAt
  rw [hHash] at hRank hAt
  let home := table.bucketIdxFromHash (mixedHash bp pair.1)
  have hHome : home < table.numBuckets := hShaped.home_lt (Nat.mod_lt _ (by simp))
  let inv (d : Nat) (b : Nat) : Prop := d ≤ j ∧ b = (home + (j - d)) % table.numBuckets
  have hInv : inv j home := ⟨Nat.le_refl j, by simp [Nat.mod_eq_of_lt hHome]⟩
  have hStep : ∀ d b, inv d b → cond b = true → ∃ d' < d, inv d' (table.next b) := by
    rintro d b ⟨hd, rfl⟩ hGoes
    cases d with
    | zero => exact absurd (congrArg (fun q => (table.buckets q).valueIdx) hAt) ((hCond _).mp hGoes)
    | succ d =>
        refine ⟨d, Nat.lt_succ_self d, Nat.le_of_succ_le hd, ?_⟩
        rw [hShaped.next_eq (Nat.mod_lt _ hn), Nat.mod_add_mod, Nat.add_assoc,
          show j - (d + 1) + 1 = j - d by omega]
  obtain ⟨d, b, hReturns, ⟨_, rfl⟩, hEnd⟩ := While.returns inv hInv hStep
  have hFound := Bool.eq_false_iff.mp hEnd
  rw [Ne, hCond, not_not] at hFound
  refine ⟨_, Nat.mod_lt _ hn, hReturns, ?_, hFound⟩
  have hReach : distAndFingerprintFromHash (mixedHash bp pair.1) + j * distIncrement ≤
      (table.buckets ((home + j) % table.numBuckets)).cell.rank := by
    rw [hAt, ← hRank]
    rfl
  have hPath := hOrdered.before hLow hPos hn hReach (Nat.sub_le j d)
  simp only [Bucket.cell] at hPath
  omega

/-- What `do_erase` leaves of the index when the buckets are shifted. -/
structure Holed (bp : Blueprint K V) (table : Table K V) (v : Nat) : Prop
    extends Shaped table where
  ordered : InOrder bp table table.buckets
  items_eq : v ::ₘ indices table table.buckets = Multiset.range table.values.length
  room : table.values.length < table.numBuckets
  few : table.values.length ≤ pairLimit

/-- The invariant of the loop that shifts buckets down, `d` buckets before the
empty bucket `q`. The index in the gap is one too many. -/
structure Shifting (bp : Blueprint K V) (table : Table K V) (rest : Multiset Nat) (q d : Nat)
    (gap : Gap) : Prop where
  inside : gap.bucketIdx < table.numBuckets
  next_eq : gap.nextBucketIdx = (gap.bucketIdx + 1) % table.numBuckets
  empty : (gap.buckets q).distAndFingerprint = 0
  ahead : (gap.bucketIdx + d) % table.numBuckets = q
  taken : (gap.buckets gap.bucketIdx).distAndFingerprint ≠ 0
  ordered : InOrder bp table gap.buckets
  items_eq : indices table gap.buckets = (gap.buckets gap.bucketIdx).valueIdx ::ₘ rest

/-- One round copies the next bucket back and goes on to it. -/
theorem Shifting.shiftDown (hShaped : Shaped table) {rest : Multiset Nat}
    (hFew : rest.card + 1 ≤ pairLimit) {q d : Nat} (hq : q < table.numBuckets) {gap : Gap}
    (h : Shifting bp table rest q d gap)
    (hNext : distIncrement * 2 ≤ (gap.buckets gap.nextBucketIdx).distAndFingerprint) :
    ∃ d' < d, Shifting bp table rest q d' (table.shiftDown gap) := by
  have hBase := baseRanks (hashAt bp table.values)
  have hPos := distIncrement_pos
  have hNe : q ≠ gap.bucketIdx := fun hSame => h.taken (hSame ▸ h.empty)
  have hTwo : 1 < table.numBuckets := by
    have hb := h.inside
    omega
  have hNextNe := next_ne h.inside hTwo
  have hNextLt := next_lt h.inside
  have hCard : (indices table gap.buckets).card = rest.card + 1 := by
    rw [h.items_eq, Multiset.card_cons]
  rw [h.next_eq] at hNext
  have hSmall := rank_lt_of_card h.ordered hCard hq h.empty hNextLt
  have hCopied := h.ordered.copyBack hBase hPos h.inside (by simp only [Bucket.cell]; omega)
  generalize hMoved : gap.buckets ((gap.bucketIdx + 1) % table.numBuckets) = moved
    at hNext hSmall hCopied
  have hDec : distDec moved.distAndFingerprint = moved.distAndFingerprint - distIncrement := by
    simp only [pairLimit, distIncrement, Nat.one_shiftLeft] at hFew hSmall hNext ⊢
    exact distDec_of_le (by simp only [distIncrement, Nat.one_shiftLeft]; omega) (by omega)
  have hRank : moved.distAndFingerprint - distIncrement ≠ 0 := by omega
  cases d with
  | zero =>
      have hAt := h.ahead
      rw [Nat.add_zero, Nat.mod_eq_of_lt h.inside] at hAt
      exact absurd hAt.symm hNe
  | succ d =>
      refine ⟨d, Nat.lt_succ_self d, ?_, ?_, ?_, ?_, ?_, ?_, ?_⟩
      · simp only [Table.shiftDown, h.next_eq]
        exact hNextLt
      · simp only [Table.shiftDown, h.next_eq]
        exact hShaped.next_eq hNextLt
      · simp only [Table.shiftDown, Function.update_of_ne hNe]
        exact h.empty
      · simp only [Table.shiftDown, h.next_eq]
        rw [Nat.mod_add_mod, Nat.add_assoc, Nat.add_comm 1]
        exact h.ahead
      · simp only [Table.shiftDown, h.next_eq, Function.update_of_ne hNextNe, hMoved]
        omega
      · simp only [InOrder, Table.shiftDown, cell_update, h.next_eq, hMoved, hDec]
        exact hCopied
      · have hExchange : (gap.buckets gap.bucketIdx).valueIdx ::ₘ
            items (Function.update (fun p => (gap.buckets p).cell) gap.bucketIdx
              ⟨moved.distAndFingerprint - distIncrement, moved.valueIdx⟩) table.numBuckets =
            moved.valueIdx ::ₘ indices table gap.buckets :=
          items_exchange h.inside h.taken hRank
        rw [h.items_eq, Multiset.cons_swap, Multiset.cons_inj_right] at hExchange
        simp only [indices, Table.shiftDown, cell_update, h.next_eq,
          Function.update_of_ne hNextNe, hMoved, hDec]
        exact hExchange

/-- The loop that shifts buckets down ends, and removes the one index. -/
theorem Indexed.shift_returns (h : Indexed bp table table.values.length) {p : Nat}
    (hp : p < table.numBuckets) (hTaken : (table.buckets p).distAndFingerprint ≠ 0) :
    ∃ gap, ReturnsTo (fun fuel => loop
        (fun gap => decide (distIncrement * 2 ≤ (gap.buckets gap.nextBucketIdx).distAndFingerprint))
        table.shiftDown fuel ⟨table.buckets, p, table.next p⟩) gap ∧
      Holed bp { table with buckets := Function.update gap.buckets gap.bucketIdx ⟨0, 0⟩ }
        (table.buckets p).valueIdx := by
  obtain ⟨q, hq, hEmpty⟩ := h.exists_empty
  obtain ⟨d, _, hAhead⟩ := exists_ahead hq p
  obtain ⟨rest, hRest⟩ : ∃ rest, indices table table.buckets =
      (table.buckets p).valueIdx ::ₘ rest :=
    Multiset.exists_cons_of_mem (mem_items.mpr ⟨p, hp, hTaken, rfl⟩)
  have hCard : rest.card + 1 ≤ pairLimit := by
    have hCards := congrArg Multiset.card hRest
    rw [h.items_eq, Multiset.card_range, Multiset.card_cons] at hCards
    exact hCards ▸ h.few
  have hFirst : Shifting bp table rest q d ⟨table.buckets, p, table.next p⟩ :=
    ⟨hp, h.next_eq hp, hEmpty, hAhead, hTaken, h.ordered, hRest⟩
  have hRound : ∀ d gap, Shifting bp table rest q d gap →
      decide (distIncrement * 2 ≤ (gap.buckets gap.nextBucketIdx).distAndFingerprint) = true →
      ∃ d' < d, Shifting bp table rest q d' (table.shiftDown gap) :=
    fun d gap hShifting hGoes => hShifting.shiftDown h.toShaped hCard hq (of_decide_eq_true hGoes)
  obtain ⟨_, gap, hReturns, hLast, hEnd⟩ := While.returns _ hFirst hRound
  refine ⟨gap, hReturns, ⟨h.pos, h.lt, h.numBuckets_eq⟩, ?_, ?_, h.room, h.few⟩
  · simp only [InOrder, cell_update]
    apply hLast.ordered.clear _ rfl
    rw [← hLast.next_eq, Nat.mul_comm]
    exact Nat.lt_of_not_le (of_decide_eq_false hEnd)
  · have hClear : (gap.buckets gap.bucketIdx).valueIdx ::ₘ
        items (Function.update (fun p => (gap.buckets p).cell) gap.bucketIdx ⟨0, 0⟩)
          table.numBuckets = indices table gap.buckets :=
      items_clear hLast.inside hLast.taken rfl
    rw [hLast.items_eq, Multiset.cons_inj_right] at hClear
    simp only [indices, cell_update]
    rw [← h.items_eq, hRest, ← hClear]
    rfl

namespace Holed

variable {v : Nat} (h : Holed bp table v)
include h

theorem lt_length : v < table.values.length := by
  rw [← Multiset.mem_range, ← h.items_eq]
  exact Multiset.mem_cons_self v _

theorem nodup : (indices table table.buckets).Nodup := by
  have hNodup : (v ::ₘ indices table table.buckets).Nodup := h.items_eq ▸ Multiset.nodup_range _
  exact (Multiset.nodup_cons.mp hNodup).2

/-- The indices but the one of the pair are referred to. -/
theorem mem_indices {u : Nat} :
    u ∈ indices table table.buckets ↔ u < table.values.length ∧ u ≠ v := by
  have hNodup : (v ::ₘ indices table table.buckets).Nodup := h.items_eq ▸ Multiset.nodup_range _
  have hMem : u ∈ v ::ₘ indices table table.buckets ↔ u < table.values.length := by
    rw [h.items_eq, Multiset.mem_range]
  rw [Multiset.mem_cons] at hMem
  constructor
  · intro hu
    refine ⟨hMem.mp (Or.inr hu), ?_⟩
    rintro rfl
    exact (Multiset.nodup_cons.mp hNodup).1 hu
  · rintro ⟨hLess, hNe⟩
    exact (hMem.mpr hLess).resolve_left hNe

/-- The last pair is dropped. -/
theorem dropLast_indexed (hLast : v = table.values.length - 1) :
    Indexed bp { table with values := table.values.dropLast } (table.values.length - 1) := by
  have hLess := h.lt_length
  have hRoom := h.room
  have hFew := h.few
  have hRange := h.items_eq
  obtain ⟨m, hm⟩ := Nat.exists_eq_add_one.mpr (Nat.zero_lt_of_lt hLess)
  rw [hm, Nat.add_sub_cancel] at hLast
  rw [hm, Multiset.range_succ, hLast, Multiset.cons_inj_right] at hRange
  rw [hm] at hRoom hFew
  simp only [hm, Nat.add_sub_cancel]
  refine ⟨⟨h.pos, h.lt, h.numBuckets_eq⟩, ?_, hRange, ?_, Nat.lt_of_succ_lt hRoom,
    Nat.le_of_succ_le hFew⟩
  · apply InOrder.congr_values h.ordered
    intro u hu
    obtain ⟨hu, hNe⟩ := h.mem_indices.mp hu
    rw [hashAt, hashAt, List.getElem?_dropLast, if_pos (by omega)]
  · simp [hm]

/-- The last pair takes the place of the pair, and its bucket follows it. -/
theorem moveBack_returns (hNe : v ≠ table.values.length - 1) :
    ∃ back buckets, table.values.getLast? = some back ∧
      ReturnsTo (fun fuel => table.moveBack bp fuel v)
        { table with values := table.values.set v back, buckets } ∧
      Indexed bp { table with values := swapRemove table.values v, buckets }
        (table.values.length - 1) := by
  have hLess := h.lt_length
  have hFew := h.few
  have hWidth : (table.values.length - 1) % 2 ^ 32 = table.values.length - 1 := by
    simp only [pairLimit] at hFew
    exact Nat.mod_eq_of_lt (by omega)
  obtain ⟨back, hBack⟩ : ∃ back, table.values[table.values.length - 1]? = some back :=
    ⟨_, List.getElem?_eq_getElem (by omega)⟩
  obtain ⟨p, hp, hReturns, hTaken, hItem⟩ := seek_returns
    (fun b => (table.values.length - 1) % 2 ^ 32 != (table.buckets b).valueIdx) h.toShaped
    h.ordered (h.mem_indices.mpr ⟨by omega, Ne.symm hNe⟩) hBack fun b => by
      rw [hWidth, bne_iff_ne, ne_comm]
  have hHashBack : hashAt bp table.values (table.values.length - 1) = mixedHash bp back.1 :=
    hashAt_eq hBack
  have hFilled : (swapRemove table.values v)[v]? = table.values.getLast? :=
    getElem?_swapRemove_self (by omega)
  rw [← List.getLast?_eq_getElem?] at hBack
  rw [hBack] at hFilled
  refine ⟨back, Function.update table.buckets p { table.buckets p with valueIdx := v }, hBack,
    ?_, ⟨h.pos, h.lt, h.numBuckets_eq⟩, ?_, ?_, ?_, ?_, ?_⟩
  · simp only [Table.moveBack, hBack]
    exact hReturns.bind (ReturnsTo.pure _)
  · apply h.ordered.relabel
    · intro q _
      by_cases hq : q = p
      · simp [hq, Bucket.cell]
      · simp [hq]
    · intro q hq hLive
      have hHash : hashAt bp (swapRemove table.values v)
          (Function.update table.buckets p { table.buckets p with valueIdx := v } q).valueIdx =
            hashAt bp table.values (table.buckets q).valueIdx := by
        by_cases hSame : q = p
        · rw [hSame, Function.update_self, hItem, hHashBack, hashAt_eq hFilled]
        · rw [Function.update_of_ne hSame, hashAt, hashAt]
          obtain ⟨hAt, hAway⟩ : (table.buckets q).valueIdx < table.values.length ∧
              (table.buckets q).valueIdx ≠ v :=
            h.mem_indices.mp (mem_items.mpr ⟨q, hq, hLive, rfl⟩)
          have hBefore : (table.buckets q).valueIdx ≠ table.values.length - 1 := fun hEnd =>
            hSame (cell_unique h.nodup hq hp hLive hTaken (hEnd.trans hItem.symm))
          rw [getElem?_swapRemove_of_ne (by omega) hAway]
      simp only [Bucket.cell, hHash, and_true]
      rfl
  · have hExchange : (table.buckets p).valueIdx ::ₘ
        items (Function.update (fun q => (table.buckets q).cell) p
          ⟨(table.buckets p).distAndFingerprint, v⟩) table.numBuckets =
        v ::ₘ indices table table.buckets :=
      items_exchange hp hTaken hTaken
    obtain ⟨m, hm⟩ := Nat.exists_eq_add_one.mpr (Nat.zero_lt_of_lt hLess)
    rw [h.items_eq, hItem, hm, Nat.add_sub_cancel, Multiset.range_succ,
      Multiset.cons_inj_right] at hExchange
    simp only [indices, cell_update, hm, Nat.add_sub_cancel]
    exact hExchange
  · simp [length_swapRemove]
  · exact (Nat.sub_le _ _).trans_lt h.room
  · exact (Nat.sub_le _ _).trans h.few

/-- The pair leaves the vector, which stays without holes. -/
theorem dropValue_returns :
    ∃ buckets, ReturnsTo (fun fuel => table.dropValue bp fuel v)
        { table with values := swapRemove table.values v, buckets } ∧
      Indexed bp { table with values := swapRemove table.values v, buckets }
        (table.values.length - 1) := by
  by_cases hLast : v = table.values.length - 1
  · refine ⟨table.buckets, ?_, ?_⟩
    · simp only [Table.dropValue, hLast, ne_eq, not_true, if_false, swapRemove_last]
      exact ReturnsTo.pure _
    · rw [hLast, swapRemove_last]
      exact h.dropLast_indexed hLast
  · obtain ⟨back, buckets, hBack, hReturns, hIndexed⟩ := h.moveBack_returns hLast
    refine ⟨buckets, ?_, hIndexed⟩
    simp only [Table.dropValue, ne_eq, hLast, not_false_eq_true, if_true, swapRemove_eq hBack]
    exact hReturns.map _

end Holed

namespace Indexed

variable (h : Indexed bp table table.values.length)
include h

/-- `do_erase` of an occupied bucket. -/
theorem doErase_returns {p : Nat} (hp : p < table.numBuckets)
    (hTaken : (table.buckets p).distAndFingerprint ≠ 0) :
    ∃ buckets, ReturnsTo (fun fuel => table.doErase bp fuel p)
        { table with
          values := swapRemove table.values (table.buckets p).valueIdx, buckets } ∧
      Indexed bp { table with
          values := swapRemove table.values (table.buckets p).valueIdx, buckets }
        (table.values.length - 1) := by
  obtain ⟨gap, hGap, hHoled⟩ := h.shift_returns hp hTaken
  obtain ⟨buckets, hReturns, hIndexed⟩ := hHoled.dropValue_returns
  refine ⟨buckets, ?_, hIndexed⟩
  simp only [Table.doErase]
  exact hGap.bind hReturns

/-- `erase( iterator )` removes the pair at the index. -/
theorem erase_returns {v : Nat} (hv : v < table.values.length) :
    ∃ buckets, ReturnsTo (fun fuel => table.erase bp fuel v)
        { table with values := swapRemove table.values v, buckets } ∧
      Indexed bp { table with values := swapRemove table.values v, buckets }
        (table.values.length - 1) := by
  have hPair : table.values[v]? = some table.values[v] := List.getElem?_eq_getElem hv
  obtain ⟨p, hp, hSeek, hTaken, rfl⟩ := seek_returns
    (fun b => (table.buckets b).valueIdx != v) h.toShaped h.ordered
    (h.items_eq ▸ Multiset.mem_range.mpr hv) hPair fun b => bne_iff_ne
  obtain ⟨buckets, hReturns, hIndexed⟩ := h.doErase_returns hp hTaken
  refine ⟨buckets, ?_, hIndexed⟩
  simp only [Table.erase, hPair]
  exact hSeek.bind hReturns

/-- `do_erase_key` removes the pair of the key, if there is one. -/
theorem doEraseKey_returns (key : K) :
    (∃ (v : Nat) (hv : v < table.values.length) (buckets : Nat → Bucket),
      bp.cmprKeys key table.values[v].1 = true ∧
      ReturnsTo (fun fuel => table.doEraseKey bp fuel key)
        ({ table with values := swapRemove table.values v, buckets }, 1) ∧
      Indexed bp { table with values := swapRemove table.values v, buckets }
        (table.values.length - 1)) ∨
    ((∀ pair ∈ table.values, bp.cmprKeys key pair.1 = false) ∧
      ReturnsTo (fun fuel => table.doEraseKey bp fuel key) (table, 0)) := by
  by_cases hEmpty : table.values = []
  · refine Or.inr ⟨by simp [hEmpty], ?_⟩
    simp only [Table.doEraseKey, hEmpty, List.isEmpty_nil, if_true]
    exact ReturnsTo.pure _
  · obtain ⟨cursor, j, hCursor, hMissed, hCases⟩ := h.eraseCursor_returns key
    simp only [Table.doEraseKey, List.isEmpty_iff, hEmpty, if_false]
    rcases hCases with hHit | hRank
    · obtain ⟨pair, hPair, hKey, hv⟩ := h.hit_spec hMissed hHit
      have hDist := (hit_iff.mp hHit).1
      obtain ⟨buckets, hReturns, hIndexed⟩ :=
        h.doErase_returns (hMissed.inside h.toShaped) (hDist ▸ hMissed.pos.ne')
      refine Or.inl ⟨_, hv, buckets, ?_, ?_, hIndexed⟩
      · rw [List.getElem?_eq_getElem hv, Option.some.injEq] at hPair
        rwa [hPair]
      · apply hCursor.bind
        simp only [hDist, ne_eq, not_true, if_false]
        exact hReturns.bind (ReturnsTo.pure _)
    · refine Or.inr ⟨h.absent_all hMissed hRank, ?_⟩
      apply hCursor.bind
      simp only [ne_eq, hRank.ne', not_false_eq_true, if_true]
      exact ReturnsTo.pure _

end Indexed

end HashBench.UnorderedDense
