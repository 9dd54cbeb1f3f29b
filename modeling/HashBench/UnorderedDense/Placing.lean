import HashBench.UnorderedDense.Index

/-! The index grows: a bucket is placed, the buckets are filled from the vector,
and lookups find what was placed. -/
namespace HashBench.UnorderedDense

open Search While RobinHood

variable {K V : Type} {bp : Blueprint K V} {table : Table K V} {count : Nat} {key : K}

/-- The invariant of `place_and_shift_up`, `d` buckets before the empty bucket `q`. -/
structure Carrying (bp : Blueprint K V) (table : Table K V) (count q d : Nat) (carry : Carry) :
    Prop where
  empty : (carry.buckets q).distAndFingerprint = 0
  ahead : (carry.place + d) % table.numBuckets = q
  ordered : InOrder bp table carry.buckets
  carried : Carried table.numBuckets distIncrement
    (fun v => table.bucketIdxFromHash (hashAt bp table.values v))
    (fun v => distAndFingerprintFromHash (hashAt bp table.values v))
    (fun p => (carry.buckets p).cell) carry.place carry.bucket.cell
  rank_le : (carry.buckets carry.place).distAndFingerprint ≤ carry.bucket.distAndFingerprint
  items_eq : carry.bucket.valueIdx ::ₘ indices table carry.buckets = Multiset.range (count + 1)

/-- One round carries the bucket on that was in the place. -/
theorem Carrying.shiftUp (hShaped : Shaped table) (hFew : count + 1 ≤ pairLimit)
    (hRoom : count + 1 < table.numBuckets) {q d : Nat} (hq : q < table.numBuckets) {carry : Carry}
    (h : Carrying bp table count q d carry)
    (hTaken : (carry.buckets carry.place).distAndFingerprint ≠ 0) :
    ∃ d' < d, Carrying bp table count q d' (table.shiftUp carry) := by
  have hBase := baseRanks (hashAt bp table.values)
  have hNe : q ≠ carry.place := fun hSame => hTaken (hSame ▸ h.empty)
  have hCard : (indices table carry.buckets).card = count := by
    simpa using congrArg Multiset.card h.items_eq
  have hSmall := rank_lt_of_card h.ordered hCard hq h.empty h.carried.inside
  have hInc : distInc (carry.buckets carry.place).distAndFingerprint =
      (carry.buckets carry.place).distAndFingerprint + distIncrement := by
    apply distInc_of_lt
    simp only [pairLimit, distIncrement, Nat.one_shiftLeft] at hFew hSmall ⊢
    omega
  have hNext := hShaped.next_eq h.carried.inside
  cases d with
  | zero =>
      have hAt := h.ahead
      rw [Nat.add_zero, Nat.mod_eq_of_lt h.carried.inside] at hAt
      exact absurd hAt.symm hNe
  | succ d =>
      refine ⟨d, Nat.lt_succ_self d, ?_, ?_, ?_, ?_, ?_, ?_⟩
      · simp only [Table.shiftUp, Function.update_of_ne hNe]
        exact h.empty
      · simp only [Table.shiftUp, hNext]
        rw [Nat.mod_add_mod, Nat.add_assoc, Nat.add_comm 1]
        exact h.ahead
      · simp only [InOrder, Table.shiftUp, cell_update]
        exact h.carried.write h.ordered hBase distIncrement_pos h.rank_le
      · simp only [Table.shiftUp, cell_update, hNext, hInc]
        exact h.carried.exchange h.ordered hBase distIncrement_pos hTaken h.rank_le
      · simp only [Table.shiftUp, hNext, hInc]
        have hLe := Carried.next_le h.ordered h.carried.inside (by omega) hTaken carry.bucket.cell
        rw [← cell_update] at hLe
        exact hLe
      · simp only [indices, Table.shiftUp, cell_update]
        rw [← h.items_eq]
        exact items_exchange h.carried.inside hTaken (h.carried.rank_ne hBase distIncrement_pos)

/-- `place_and_shift_up` puts the next pair of the vector into the index. -/
theorem Indexed.placeAndShiftUp_returns (h : Indexed bp table count) {pair : K × V}
    (hPair : table.values[count]? = some pair) {cursor : Cursor}
    (hSought : Sought table.numBuckets distIncrement (fun p => (table.buckets p).cell)
      (table.cursor bp pair.1).bucketIdx (table.cursor bp pair.1).distAndFingerprint
      cursor.bucketIdx cursor.distAndFingerprint)
    (hRank : (table.buckets cursor.bucketIdx).distAndFingerprint ≤ cursor.distAndFingerprint)
    (hFew : count + 1 ≤ pairLimit) (hRoom : count + 1 < table.numBuckets) :
    ∃ buckets, ReturnsTo (fun fuel =>
        table.placeAndShiftUp fuel ⟨cursor.distAndFingerprint, count⟩ cursor.bucketIdx)
        { table with buckets } ∧
      Indexed bp { table with buckets } (count + 1) := by
  obtain ⟨q, hq, hEmpty⟩ := h.exists_empty
  obtain ⟨d, _, hAhead⟩ := exists_ahead hq cursor.bucketIdx
  have hBase := baseRanks (hashAt bp table.values)
  have hHash : hashAt bp table.values count = mixedHash bp pair.1 := hashAt_eq hPair
  have hCarried : Carried table.numBuckets distIncrement
      (fun v => table.bucketIdxFromHash (hashAt bp table.values v))
      (fun v => distAndFingerprintFromHash (hashAt bp table.values v))
      (fun p => (table.buckets p).cell) cursor.bucketIdx ⟨cursor.distAndFingerprint, count⟩ := by
    apply hSought.carried h.ordered hBase distIncrement_pos h.numBuckets_pos
    · rw [hHash]
      rfl
    · rw [hHash]
      rfl
  have hFirst : Carrying bp table count q d
      ⟨table.buckets, ⟨cursor.distAndFingerprint, count⟩, cursor.bucketIdx⟩ :=
    ⟨hEmpty, hAhead, h.ordered, hCarried, hRank, by rw [h.items_eq, Multiset.range_succ]⟩
  have hRound : ∀ d carry, Carrying bp table count q d carry →
      (0 != (carry.buckets carry.place).distAndFingerprint) = true →
      ∃ d' < d, Carrying bp table count q d' (table.shiftUp carry) :=
    fun d carry hCarrying hGoes =>
      hCarrying.shiftUp h.toShaped hFew hRoom hq (Ne.symm (bne_iff_ne.mp hGoes))
  obtain ⟨_, last, hReturns, hLast, hEnd⟩ := While.returns _ hFirst hRound
  have hFree : (last.buckets last.place).distAndFingerprint = 0 :=
    (bne_eq_false_iff_eq.mp hEnd).symm
  refine ⟨Function.update last.buckets last.place last.bucket, hReturns.map _,
    ⟨h.pos, h.lt, h.numBuckets_eq⟩, ?_, ?_, ?_, hRoom, hFew⟩
  · simp only [InOrder, cell_update]
    exact hLast.carried.write hLast.ordered hBase distIncrement_pos hLast.rank_le
  · simp only [indices, cell_update]
    rw [items_fill hLast.carried.inside hFree (hLast.carried.rank_ne hBase distIncrement_pos)]
    exact hLast.items_eq
  · exact (List.getElem?_eq_some_iff.mp hPair).1

/-- The index is about the keys of the pairs that it refers to only. -/
theorem InOrder.congr_values (h : InOrder bp table table.buckets) {values : List (K × V)}
    (hSame : ∀ v ∈ indices table table.buckets, hashAt bp values v = hashAt bp table.values v) :
    InOrder bp { table with values } table.buckets := by
  apply h.relabel (fun _ _ => rfl)
  intro p hp hTaken
  have hHash : hashAt bp values (table.buckets p).valueIdx =
      hashAt bp table.values (table.buckets p).valueIdx :=
    hSame _ (mem_items.mpr ⟨p, hp, hTaken, rfl⟩)
  simp only [Bucket.cell, hHash, and_true]
  rfl

theorem Indexed.congr_values (h : Indexed bp table count) {values : List (K × V)}
    (hSame : ∀ v < count, hashAt bp values v = hashAt bp table.values v)
    (hLe : count ≤ values.length) : Indexed bp { table with values } count := by
  refine ⟨⟨h.pos, h.lt, h.numBuckets_eq⟩, ?_, h.items_eq, hLe, h.room, h.few⟩
  apply InOrder.congr_values h.ordered
  intro v hv
  rw [h.items_eq, Multiset.mem_range] at hv
  exact hSame v hv

/-- Cleared buckets refer to none of the pairs. -/
theorem Shaped.indexed (h : Shaped table) (bp : Blueprint K V) (values : List (K × V)) :
    Indexed bp { table.clearBuckets with values } 0 where
  toShaped := ⟨h.pos, h.lt, h.numBuckets_eq⟩
  ordered := Ordered.of_empty fun _ _ => rfl
  items_eq := items_of_empty fun _ _ => rfl
  count_le := Nat.zero_le _
  room := h.numBuckets_pos
  few := Nat.zero_le _

theorem Indexed.fillOne_returns (h : Indexed bp table count) (hCount : count < table.values.length)
    (hFew : count + 1 ≤ pairLimit) (hRoom : count + 1 < table.numBuckets) :
    ∃ buckets, ReturnsTo (fun fuel => Table.fillOne bp fuel table count) { table with buckets } ∧
      Indexed bp { table with buckets } (count + 1) := by
  have hPair : table.values[count]? = some table.values[count] := List.getElem?_eq_getElem hCount
  obtain ⟨cursor, j, hCursor, hMissed, hRank⟩ := h.nextWhileLess_returns table.values[count].1
  obtain ⟨buckets, hReturns, hIndexed⟩ :=
    h.placeAndShiftUp_returns hPair hMissed.sought hRank hFew hRoom
  refine ⟨buckets, ?_, hIndexed⟩
  simp only [Table.fillOne, hPair]
  exact hCursor.bind hReturns

/-- `clear_and_fill_buckets_from_values` indexes the whole vector. -/
theorem Shaped.fill_returns (h : Shaped table) (bp : Blueprint K V)
    (hFew : table.values.length ≤ pairLimit) (hRoom : table.values.length < table.numBuckets) :
    ∃ buckets, ReturnsTo (fun fuel => table.clearAndFillBucketsFromValues bp fuel)
        { table with buckets } ∧
      Indexed bp { table with buckets } table.values.length := by
  have hFill : ∀ m ≤ table.values.length, ∃ buckets, ReturnsTo (fun fuel =>
        (List.range m).foldlM (Table.fillOne bp fuel) table.clearBuckets) { table with buckets } ∧
      Indexed bp { table with buckets } m := by
    intro m
    induction m with
    | zero => exact fun _ => ⟨_, ReturnsTo.pure _, h.indexed bp table.values⟩
    | succ m ih =>
        intro hm
        obtain ⟨buckets, hReturns, hIndexed⟩ := ih (Nat.le_of_succ_le hm)
        obtain ⟨buckets', hReturns', hIndexed'⟩ :=
          hIndexed.fillOne_returns hm (hm.trans hFew) (hm.trans_lt hRoom)
        refine ⟨buckets', ?_, hIndexed'⟩
        simp only [List.range_succ, List.foldlM_append, List.foldlM_cons, List.foldlM_nil]
        exact hReturns.bind (hReturns'.bind (ReturnsTo.pure _))
  have hWidth : table.values.length % 2 ^ 32 = table.values.length := by
    apply Nat.mod_eq_of_lt
    simp only [pairLimit] at hFew
    omega
  simp only [Table.clearAndFillBucketsFromValues, hWidth]
  exact hFill _ (Nat.le_refl _)

/-- What a lookup of a key returns. -/
def Located (bp : Blueprint K V) (values : List (K × V)) (key : K) : Option Nat → Prop
  | some v => ∃ pair, values[v]? = some pair ∧ bp.cmprKeys key pair.1 = true
  | none => ∀ pair ∈ values, bp.cmprKeys key pair.1 = false

namespace Indexed

variable (h : Indexed bp table table.values.length)
include h

theorem absent_all {skip j : Nat} {cursor : Cursor} (hMissed : Missed bp table key skip j cursor)
    (hRank : (table.buckets cursor.bucketIdx).distAndFingerprint < cursor.distAndFingerprint) :
    ∀ pair ∈ table.values, bp.cmprKeys key pair.1 = false := by
  intro pair hPair
  obtain ⟨v, hv, rfl⟩ := List.mem_iff_getElem.mp hPair
  exact h.absent hMissed hRank hv (List.getElem?_eq_getElem hv)

/-- A lookup ends and finds the key's pair. The first two buckets are looked at
without a test for the end of the key's range. -/
theorem doFind_returns (key : K) :
    ∃ it, ReturnsTo (fun fuel => table.doFind bp fuel key) it ∧
      Located bp table.values key it := by
  have hFirst := Missed.first h.toShaped bp key 2
  have hFound {j : Nat} {cursor : Cursor} (hMissed : Missed bp table key 2 j cursor)
      (hHit : table.hit bp key cursor = true) :
      Located bp table.values key (some (table.buckets cursor.bucketIdx).valueIdx) := by
    obtain ⟨pair, hPair, hKey, _⟩ := h.hit_spec hMissed hHit
    exact ⟨pair, hPair, hKey⟩
  by_cases hEmpty : table.values = []
  · refine ⟨none, ?_, by simp [Located, hEmpty]⟩
    simp only [Table.doFind, hEmpty, List.isEmpty_nil, if_true]
    exact ReturnsTo.pure _
  · simp only [Table.doFind, List.isEmpty_iff, hEmpty, if_false]
    cases hHit : table.hit bp key (table.cursor bp key) with
    | true => exact ⟨_, ReturnsTo.pure _, hFound hFirst hHit⟩
    | false =>
        have hSecond := h.advance hFirst (Nat.le_refl 2) hHit (Or.inl Nat.two_pos)
        cases hHit' : table.hit bp key (table.advance (table.cursor bp key)) with
        | true => exact ⟨_, ReturnsTo.pure _, hFound hSecond hHit'⟩
        | false =>
            have hThird := h.advance hSecond (Nat.le_refl 2) hHit' (Or.inl (Nat.lt_succ_self 1))
            obtain ⟨last, j, hReturns, hLast, hCases⟩ :=
              h.probe_returns hThird (Nat.le_refl 2) (Nat.le_refl 2)
            refine ⟨_, hReturns.map _, ?_⟩
            rcases hCases with hHit | ⟨hHit, hRank⟩
            · simp only [hHit, if_true]
              exact hFound hLast hHit
            · simp only [hHit, Bool.false_eq_true, if_false]
              exact h.absent_all hLast hRank

end Indexed

end HashBench.UnorderedDense
