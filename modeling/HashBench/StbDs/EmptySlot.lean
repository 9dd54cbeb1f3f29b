import HashBench.StbDs.Refinement

/-! The empty slot that ends the probes of stb_ds. The thresholds of the
modified header add up to the slot count, so one insertion can use up the last
empty slot: the one that fills the table to its limit while the tombstones are
at theirs, and meets none of them. -/
namespace HashBench.StbDs

open Search OpenAddressing

variable {K V β : Type*}

/-- The index, if there is one, has a slot whose hash is `STBDS_HASH_EMPTY`. -/
def HasEmptySlot (t : Table K V) : Prop :=
  ∀ a table, t = some a → a.hashTable = some table →
    ∃ p < table.slotCount, slotHash (table.storage p) = 0

/-- The probe for `key` meets a deleted slot before any empty one. -/
def MeetsTombstone (keys : KeyAccess K β) (table : HashIndex) (key : K) : Prop :=
  ∃ j, table.storage (keySeq keys table key j) = .deleted ∧
    ∀ i < j, table.storage (keySeq keys table key i) ≠ .empty

/-- An insertion of an absent key that would bring the used count to its
threshold while the tombstone count is at its own meets a tombstone. -/
def SafeCall (keys : KeyAccess K β) (t : Table K V) : Call K → Prop
  | .insert key => ∀ a table, t = some a → a.hashTable = some table →
      (∀ i < a.length - 1, keys.content key ≠ keys.content (a.data i).key) →
      table.usedCount + 1 = table.usedCountThreshold →
      table.tombstoneCount = table.tombstoneCountThreshold → MeetsTombstone keys table key
  | .erase _ => True
  | .find _ => True

/-- The counters are within their thresholds and leave an empty slot. -/
structure Roomy (table : HashIndex) : Prop where
  used_le : table.usedCount ≤ table.usedCountThreshold
  tombstone_le : table.tombstoneCount ≤ table.tombstoneCountThreshold
  free : table.usedCount + table.tombstoneCount < table.slotCount

def TableRoomy (t : Table K V) : Prop :=
  ∀ a table, t = some a → a.hashTable = some table → Roomy table

theorem TableRoomy.of_some {a : DenseArray K V}
    (h : ∀ table, a.hashTable = some table → Roomy table) : TableRoomy (some a) := by
  intro a' table hEq hTable
  obtain rfl := Option.some.inj hEq
  exact h table hTable

section Index

variable {table table' : HashIndex} {stored : Multiset Ref} {hashSeed fuel : Nat}

/-- The thresholds in terms of the number of buckets. -/
theorem IndexOk.thresholds (h : IndexOk table stored) :
    ∃ m, 0 < m ∧ table.slotCount = 8 * m ∧ table.usedCountThreshold = 7 * m ∧
      table.tombstoneCountThreshold = m := by
  obtain ⟨k, hSize⟩ := h.size
  have hEight : table.slotCount = 8 * 2 ^ k := by
    rw [hSize, pow_add]
    ring
  refine ⟨2 ^ k, Nat.two_pow_pos k, hEight, ?_, ?_⟩
  · rw [h.usedCountThreshold_eq, hEight]
    omega
  · rw [h.tombstoneCountThreshold_eq, hEight]
    omega

theorem IndexOk.exists_empty (h : IndexOk table stored) (hRoomy : Roomy table) :
    ∃ p < table.slotCount, table.storage p = .empty :=
  OpenAddressing.exists_empty (h.filled_eq ▸ hRoomy.free)

/-- The index that an insertion probes is below its threshold. It is the old
one or has no tombstone. -/
theorem indexForPut_roomy {a : DenseArray K V}
    (hOk : ∀ {table}, a.hashTable = some table → ∃ stored, IndexOk table stored)
    (hRoomy : ∀ table, a.hashTable = some table → Roomy table)
    (hIndex : indexForPut hashSeed fuel a = some table) :
    Roomy table ∧ table.usedCount < table.usedCountThreshold ∧
      (a.hashTable = some table ∨ table.tombstoneCount = 0) := by
  unfold indexForPut at hIndex
  cases hTable : a.hashTable with
  | none =>
      rw [hTable] at hIndex
      obtain rfl := Option.some.inj hIndex
      exact ⟨⟨Nat.zero_le _, Nat.zero_le _, (by decide : 0 + 0 < 8)⟩,
        (by decide : 0 < 8 * 14 / 16), Or.inr rfl⟩
  | some old =>
      rw [hTable] at hIndex
      obtain ⟨stored, hOld⟩ := hOk hTable
      dsimp only at hIndex
      split at hIndex
      · obtain ⟨k, hSize⟩ := hOld.size
        obtain ⟨hNew, hCount, _, hNone, hUsed⟩ :=
          hOld.make (k := k + 1) (by rw [hSize]; ring) hIndex
        obtain ⟨m, hm, hSlots, hThreshold, _⟩ := hOld.thresholds
        obtain ⟨m', _, hSlots', hThreshold', hTombs'⟩ := hNew.thresholds
        have hLe := (hRoomy old hTable).used_le
        exact ⟨⟨by omega, by omega, by omega⟩, by omega, Or.inr hNone⟩
      · rename_i hLess
        obtain rfl := Option.some.inj hIndex
        exact ⟨hRoomy old hTable, Nat.lt_of_not_le hLess, Or.inl rfl⟩

theorem indexForPut_returns {a : DenseArray K V} (hashSeed : Nat)
    (hOk : ∀ {table}, a.hashTable = some table → ∃ stored, IndexOk table stored)
    (hRoomy : ∀ table, a.hashTable = some table → Roomy table) :
    ∃ table, ReturnsTo (fun fuel => indexForPut hashSeed fuel a) table := by
  unfold indexForPut
  cases hTable : a.hashTable with
  | none => exact ⟨_, ReturnsTo.pure _⟩
  | some old =>
      obtain ⟨stored, hOld⟩ := hOk hTable
      dsimp only
      by_cases hGrow : old.usedCount ≥ old.usedCountThreshold
      · simp only [if_pos hGrow]
        obtain ⟨k, hSize⟩ := hOld.size
        refine hOld.make_returns hashSeed (k := k + 1) (by rw [hSize]; ring) ?_
        have hFree := (hRoomy old hTable).free
        omega
      · simp only [if_neg hGrow]
        exact ⟨old, ReturnsTo.pure old⟩

/-- After an erasure the index has an empty slot again. -/
theorem indexAfterDel_roomy (h : IndexOk table stored)
    (hUsed : table.usedCount ≤ table.usedCountThreshold)
    (hFree : table.usedCount + table.tombstoneCount < table.slotCount)
    (hIndex : indexAfterDel hashSeed fuel table = some table') : Roomy table' := by
  obtain ⟨m, hm, hSlots, hThreshold, hTombs⟩ := h.thresholds
  obtain ⟨k, hSize⟩ := h.size
  unfold indexAfterDel at hIndex
  split at hIndex
  · rename_i hShrink
    obtain ⟨k', hHalf⟩ := h.half hShrink.2
    obtain ⟨hNew, hCount, _, hNone, hSame⟩ := h.make hHalf hIndex
    obtain ⟨m', _, hSlots', hThreshold', hTombs'⟩ := hNew.thresholds
    have hSmall := hShrink.1
    rw [h.usedCountShrinkThreshold_eq, if_neg (by have := hShrink.2; omega)] at hSmall
    have hDouble : table.slotCount = table'.slotCount * 2 := by
      rw [hCount, Nat.shiftRight_one]
      omega
    exact ⟨by omega, by omega, by omega⟩
  · split at hIndex
    · obtain ⟨hNew, hCount, _, hNone, hSame⟩ := h.make hSize hIndex
      obtain ⟨m', _, hSlots', hThreshold', hTombs'⟩ := hNew.thresholds
      exact ⟨by omega, by omega, by omega⟩
    · rename_i hKeep
      obtain rfl := Option.some.inj hIndex
      exact ⟨hUsed, Nat.le_of_not_lt hKeep, hFree⟩

theorem indexAfterDel_returns (h : IndexOk table stored) (hashSeed : Nat)
    (hFree : table.usedCount + table.tombstoneCount < table.slotCount) :
    ∃ table', ReturnsTo (fun fuel => indexAfterDel hashSeed fuel table) table' := by
  obtain ⟨k, hSize⟩ := h.size
  unfold indexAfterDel
  by_cases hShrink : table.usedCount < table.usedCountShrinkThreshold ∧
      table.slotCount > bucketLength
  · simp only [if_pos hShrink]
    obtain ⟨k', hHalf⟩ := h.half hShrink.2
    obtain ⟨m, hm, hSlots, _⟩ := h.thresholds
    have hSmall := hShrink.1
    rw [h.usedCountShrinkThreshold_eq, if_neg (by have := hShrink.2; omega)] at hSmall
    refine h.make_returns hashSeed hHalf ?_
    rw [Nat.shiftRight_one]
    omega
  · simp only [if_neg hShrink]
    by_cases hRebuild : table.tombstoneCount > table.tombstoneCountThreshold
    · simp only [if_pos hRebuild]
      exact h.make_returns hashSeed hSize (by omega)
    · simp only [if_neg hRebuild]
      exact ⟨table, ReturnsTo.pure table⟩

end Index

section Returns

variable [DecidableEq β] {keys : KeyAccess K β} {value : V} {fresh : Nat → Element K V}
  {hashSeed : Nat} {t t' : Table K V} {present : K → Bool}

theorem findSlot_returns (keys : KeyAccess K β) {table : HashIndex} {stored : Multiset Ref}
    (h : IndexOk table stored) (hEmpty : ∃ p < table.slotCount, table.storage p = .empty)
    (data : Nat → Element K V) (key : K) :
    ∃ slot, ReturnsTo (fun fuel => stbdsHmFindSlot keys fuel data table key) slot := by
  obtain ⟨found, hFound⟩ := probe_returns keys data h hEmpty (fun _ acc => acc) key ()
  exact ⟨_, hFound.map _⟩

theorem find_returns (fresh : Nat → Element K V) (h : TableInv keys t present)
    (hRoomy : TableRoomy t) (key : K) :
    ∃ result, ReturnsTo (fun fuel => StbDsHmSh.find keys fresh fuel t key) result := by
  suffices hGet : ∃ a, ReturnsTo (fun fuel => stbdsHmgetKey keys fresh fuel t key) a by
    obtain ⟨a, hGet⟩ := hGet
    exact ⟨_, hGet.map _⟩
  unfold stbdsHmgetKey
  cases t with
  | none => exact ⟨_, ReturnsTo.pure _⟩
  | some a =>
      have hOk : TableOk keys a present := h
      cases hTable : a.hashTable with
      | none => exact ⟨_, by simpa only [hTable] using ReturnsTo.pure _⟩
      | some table =>
          have hIndex := hOk.index_ok hTable
          obtain ⟨slot, hSlot⟩ := findSlot_returns keys hIndex
            (hIndex.exists_empty (hRoomy a table rfl hTable)) a.data key
          exact ⟨_, by simpa only [hTable] using hSlot.map _⟩

theorem insert_returns (h : TableInv keys t present) (hRoomy : TableRoomy t) (key : K) :
    ∃ t', ReturnsTo (fun fuel => StbDsHmSh.insert keys value fresh hashSeed fuel t key) t' := by
  have hOk : TableOk keys (t.getD (newArray fresh)) present := by
    cases t with
    | none => exact TableOk.newArray fresh h
    | some a => exact h
  have hStored {table : HashIndex} (hTable : (t.getD (newArray fresh)).hashTable = some table) :
      ∃ stored, IndexOk table stored := ⟨_, hOk.index_ok hTable⟩
  have hRoom (table : HashIndex) (hTable : (t.getD (newArray fresh)).hashTable = some table) :
      Roomy table := by
    cases t with
    | none => cases hTable
    | some a => exact hRoomy a table rfl hTable
  obtain ⟨table, hIndex⟩ := indexForPut_returns hashSeed hStored hRoom
  obtain ⟨fuel, hFuel⟩ := hIndex.exists_fuel
  have hTableOk := hOk.indexForPut hFuel
  obtain ⟨found, hFound⟩ := probe_returns keys (t.getD (newArray fresh)).data
    hTableOk (hTableOk.exists_empty (indexForPut_roomy hStored hRoom hFuel).1)
    (noteFirst (isTombstone keys table key)) key none
  exact ⟨_, ((hIndex.bind (hFound.map _)).map _)⟩

/-- A search that stops at no slot never ends. -/
theorem find_diverges {a : DenseArray K V} {table : HashIndex} {k : Nat} {key : K}
    (hTable : a.hashTable = some table) (hCount : table.slotCount = 2 ^ (k + 3))
    (hNever : ∀ p < table.slotCount, slotStops keys a.data table key p = false) (fuel : Nat) :
    StbDsHmSh.find keys fresh fuel (some a) key = none := by
  have hNone : stbdsHmFindSlot keys fuel a.data table key = none := by
    rw [stbdsHmFindSlot, probeLoop_eq _ _ hCount (stbdsProbePosition_lt hCount _),
      search_diverges fun j => hNever _ (slotSeq_lt hCount _ j)]
    rfl
  simp only [StbDsHmSh.find, stbdsHmgetKey, hTable, hNone, Option.map_none]

theorem fillHole_returns (keys : KeyAccess K β) {table : HashIndex} {stored : Multiset Ref}
    (h : IndexOk table stored) (hEmpty : ∃ p < table.slotCount, table.storage p = .empty)
    (data : Nat → Element K V) (i m : Nat) :
    ∃ filled, ReturnsTo (fun fuel => fillHole keys fuel data table i m) filled := by
  unfold fillHole
  by_cases hMove : i ≠ m
  · simp only [if_pos hMove]
    obtain ⟨slot, hSlot⟩ := findSlot_returns keys h hEmpty (Function.update data i (data m))
      (Function.update data i (data m) i).key
    exact ⟨_, hSlot.map _⟩
  · simp only [if_neg hMove]
    exact ⟨_, ReturnsTo.pure _⟩

theorem erase_returns (h : TableInv keys t present) (hRoomy : TableRoomy t) (key : K) :
    ∃ t', ReturnsTo (fun fuel => StbDsHmSh.erase keys hashSeed fuel t key) t' := by
  unfold StbDsHmSh.erase stbdsHmdelKey
  cases t with
  | none => exact ⟨_, ReturnsTo.pure _⟩
  | some a =>
      have hOk : TableOk keys a present := h
      cases hTable : a.hashTable with
      | none => exact ⟨_, by simpa only [hTable] using ReturnsTo.pure _⟩
      | some table =>
          simp only [hTable]
          have hIndex := hOk.index_ok hTable
          have hRoom := hRoomy a table rfl hTable
          obtain ⟨q, hq, hEmpty⟩ := hIndex.exists_empty hRoom
          obtain ⟨slot, hSlot⟩ := findSlot_returns keys hIndex ⟨q, hq, hEmpty⟩ a.data key
          obtain ⟨fuel, hFind⟩ := hSlot.exists_fuel
          rcases findSlot_returned hIndex faithful_refs hFind with
            ⟨p, ref, rfl, hp, hRef, hLive, _⟩ | ⟨rfl, _⟩
          · obtain ⟨m, stored, hLength, hi, hCard, hBuried, hCons⟩ := hOk.bury hTable hp hRef hLive
            have hNe : q ≠ p := by
              rintro rfl
              simp [hEmpty] at hLive
            obtain ⟨⟨data, filled⟩, hFilled⟩ := fillHole_returns keys hBuried
              ⟨q, hq, (Function.update_of_ne hNe _ _).trans hEmpty⟩ a.data ref.index m
            obtain ⟨fuel', hFill⟩ := hFilled.exists_fuel
            obtain ⟨hFilledOk, _, hUsed, hTombs, hSlots⟩ :=
              hOk.fillHole_returned hLength hi hBuried hCons hFill
            have hUsed' : filled.usedCount = table.usedCount - 1 := hUsed
            have hTombs' : filled.tombstoneCount = table.tombstoneCount + 1 := hTombs
            have hSlots' : filled.slotCount = table.slotCount := hSlots
            have hFree := hRoom.free
            obtain ⟨after, hAfter⟩ := indexAfterDel_returns hFilledOk hashSeed (by omega)
            have hNonneg : ¬ ((p : Int) < 0) := by omega
            have hIndexAt : (slotIndex (table.storage p)).toNat = ref.index := by
              rw [hLive]
              rfl
            have hRest := hFilled.bind (g := fun fuel filled =>
              (indexAfterDel hashSeed fuel filled.2).map fun table =>
                (some ⟨filled.1, a.length - 1, some table, 1⟩ : Table K V)) (hAfter.map _)
            refine ⟨some ⟨data, a.length - 1, some after, 1⟩, hSlot.bind ?_⟩
            simpa only [if_neg hNonneg, hIndexAt, hLength, Nat.add_sub_cancel,
              Int.toNat_natCast] using hRest
          · refine ⟨some { a with hashTable := some table, temp := 0 }, hSlot.bind ?_⟩
            simpa only [if_pos (show (-1 : Int) < 0 by decide)] using ReturnsTo.pure _

end Returns

section Room

variable [DecidableEq β] {keys : KeyAccess K β} {value : V} {fresh : Nat → Element K V}
  {hashSeed fuel : Nat} {a a' : DenseArray K V} {t t' : Table K V} {present : K → Bool} {key : K}

omit [DecidableEq β] in
/-- An insertion notes a tombstone exactly when its probe meets one. -/
theorem noted_iff_meetsTombstone {table : HashIndex} {j : Nat}
    (hBefore : ∀ i < j, table.storage (keySeq keys table key i) ≠ .empty)
    (hEmpty : table.storage (keySeq keys table key j) = .empty) :
    trail (noteFirst (isTombstone keys table key)) (keySeq keys table key) j none ≠ none ↔
      MeetsTombstone keys table key := by
  have hHash := (hashFor keys table.seed key).2
  have hMark (slot : Nat) :
      isTombstone keys table key slot = true ↔ table.storage slot = .deleted := by
    unfold isTombstone
    cases table.storage slot with
    | empty => simp [slotIndex]
    | deleted =>
        have hNe : slotHash .deleted ≠ hashFor keys table.seed key := by
          simp only [slotHash]
          omega
        simp [slotIndex, hNe]
    | live ref => simp [slotIndex]
  rw [ne_eq, trail_noteFirst_eq_none]
  constructor
  · intro hNot
    simp only [not_forall, Bool.not_eq_false] at hNot
    obtain ⟨i, hi, hDeleted⟩ := hNot
    rw [hMark] at hDeleted
    exact ⟨i, hDeleted, fun i' hi' => hBefore i' (hi'.trans hi)⟩
  · rintro ⟨i, hDeleted, hPath⟩ hNone
    have hLt : i < j := by
      by_contra hGe
      rcases Nat.lt_or_eq_of_le (Nat.le_of_not_lt hGe) with hLt | rfl
      · exact hPath j hLt hEmpty
      · simp [hEmpty] at hDeleted
    have hUnmarked := hNone i hLt
    rw [(hMark _).mpr hDeleted] at hUnmarked
    cases hUnmarked

/-- A safe insertion leaves an empty slot. -/
theorem put_roomy (h : TableOk keys a present)
    (hRoomy : ∀ table, a.hashTable = some table → Roomy table)
    (hSafe : SafeCall keys (some a) (.insert key))
    (hPut : stbdsHmputKey keys fresh hashSeed fuel (some a) key = some a') :
    ∀ table, a'.hashTable = some table → Roomy table := by
  obtain ⟨table, hIndex, ⟨i, hi, _, rfl⟩ | ⟨hAbsent, j, hBefore, hEmpty, rfl⟩⟩ :=
    h.put_returned hPut
  all_goals
    have hTableOk := h.indexForPut hIndex
    obtain ⟨hRoom, hBelow, hOrigin⟩ :=
      indexForPut_roomy (fun hTable => ⟨_, h.index_ok hTable⟩) hRoomy hIndex
    rintro table' hTable'
    obtain rfl := Option.some.inj hTable'
  · exact hRoom
  · obtain ⟨m, hm, hSlots, hThreshold, hTombs⟩ := hTableOk.thresholds
    have hFree := hRoom.free
    have hLe := hRoom.tombstone_le
    cases hNoted : trail (noteFirst (isTombstone keys table key)) (keySeq keys table key) j none with
    | none =>
        have hLimit : ¬ (table.usedCount + 1 = table.usedCountThreshold ∧
            table.tombstoneCount = table.tombstoneCountThreshold) := by
          rintro ⟨hFull, hMany⟩
          rcases hOrigin with hSame | hNone
          · exact (noted_iff_meetsTombstone hBefore hEmpty).mpr
              (hSafe a table rfl hSame hAbsent hFull hMany) hNoted
          · omega
        refine ⟨hBelow, hLe, ?_⟩
        show table.usedCount + 1 + table.tombstoneCount < table.slotCount
        omega
    | some pos =>
        refine ⟨hBelow, Nat.le_trans (Nat.sub_le ..) hLe, ?_⟩
        show table.usedCount + 1 + (table.tombstoneCount - 1) < table.slotCount
        omega

theorem insert_roomy (h : TableInv keys t present) (hRoomy : TableRoomy t)
    (hSafe : SafeCall keys t (.insert key))
    (hInsert : StbDsHmSh.insert keys value fresh hashSeed fuel t key = some t') :
    TableRoomy t' := by
  simp only [StbDsHmSh.insert, Option.map_eq_some_iff] at hInsert
  obtain ⟨a', hPut, rfl⟩ := hInsert
  refine TableRoomy.of_some fun table hTable => ?_
  cases t with
  | none =>
      have hFirst : stbdsHmputKey keys fresh hashSeed fuel (some (newArray fresh)) key = some a' :=
        hPut
      refine put_roomy (TableOk.newArray fresh h) (fun _ hNone => by cases hNone) ?_ hFirst table
        hTable
      intro a table hEq hNone
      obtain rfl := Option.some.inj hEq
      cases hNone
  | some a => exact put_roomy h (fun table hTable => hRoomy a table rfl hTable) hSafe hPut table hTable

theorem erase_roomy (h : TableInv keys t present) (hRoomy : TableRoomy t)
    (hErase : StbDsHmSh.erase keys hashSeed fuel t key = some t') : TableRoomy t' := by
  cases t with
  | none =>
      obtain rfl := Option.some.inj hErase
      exact hRoomy
  | some a =>
      have hOk : TableOk keys a present := h
      rcases hOk.del_returned hErase with ⟨_, rfl⟩ |
        ⟨table, filled, after, i, m, hTable, _, _, _, hUsed, hTombs, hSlots, hFilled, hAfter, rfl⟩
      · exact TableRoomy.of_some fun table hTable => hRoomy a table rfl hTable
      · refine TableRoomy.of_some fun table' hTable' => ?_
        obtain rfl := Option.some.inj hTable'
        have hRoom := hRoomy a table rfl hTable
        have hFree := hRoom.free
        have hLe := hRoom.used_le
        rw [(hOk.index_ok hTable).usedCountThreshold_eq, ← hSlots,
          ← hFilled.usedCountThreshold_eq] at hLe
        exact indexAfterDel_roomy hFilled (by omega) (by omega) hAfter

theorem find_roomy {itr : Int} (hRoomy : TableRoomy t)
    (hFind : StbDsHmSh.find keys fresh fuel t key = some (t', itr)) : TableRoomy t' := by
  simp only [StbDsHmSh.find, Option.map_eq_some_iff] at hFind
  obtain ⟨a', hGet, hEq⟩ := hFind
  obtain ⟨rfl, _⟩ := Prod.mk.inj hEq
  refine TableRoomy.of_some fun table hTable => ?_
  cases t with
  | none =>
      obtain rfl := Option.some.inj hGet
      cases hTable
  | some a =>
      simp only [stbdsHmgetKey] at hGet
      cases hOld : a.hashTable with
      | none =>
          rw [hOld] at hGet
          obtain rfl := Option.some.inj hGet
          cases hTable
      | some old =>
          rw [hOld] at hGet
          simp only [Option.map_eq_some_iff] at hGet
          obtain ⟨_, _, rfl⟩ := hGet
          exact hRoomy a table rfl (hOld.trans hTable)

/-- A safe call leaves an empty slot. -/
theorem call_roomy {call : Call K} (h : TableInv keys t present) (hRoomy : TableRoomy t)
    (hSafe : SafeCall keys t call)
    (hCall : StbDsHmSh.call keys value fresh hashSeed fuel t call = some t') : TableRoomy t' := by
  cases call with
  | insert key => exact insert_roomy h hRoomy hSafe hCall
  | erase key => exact erase_roomy h hRoomy hCall
  | find key =>
      simp only [StbDsHmSh.call, Option.map_eq_some_iff] at hCall
      obtain ⟨⟨t'', itr⟩, hFind, rfl⟩ := hCall
      exact find_roomy hRoomy hFind

theorem call_returns (value : V) (fresh : Nat → Element K V) {call : Call K}
    (h : TableInv keys t present) (hRoomy : TableRoomy t) :
    ∃ t', ReturnsTo (fun fuel => StbDsHmSh.call keys value fresh hashSeed fuel t call) t' := by
  cases call with
  | insert key => exact insert_returns h hRoomy key
  | erase key => exact erase_returns h hRoomy key
  | find key =>
      obtain ⟨result, hResult⟩ := find_returns fresh h hRoomy key
      exact ⟨_, hResult.map _⟩

omit [DecidableEq β] in
theorem hasEmptySlot_of_roomy (h : TableInv keys t present) (hRoomy : TableRoomy t) :
    HasEmptySlot t := by
  rintro a table rfl hTable
  have hOk : TableOk keys a present := h
  obtain ⟨p, hp, hEmpty⟩ := (hOk.index_ok hTable).exists_empty (hRoomy a table rfl hTable)
  exact ⟨p, hp, by rw [hEmpty]; rfl⟩

/-- An insertion that is not safe fills the last slot. -/
theorem insert_full (h : TableInv keys t present) (hUnsafe : ¬ SafeCall keys t (.insert key))
    (hInsert : StbDsHmSh.insert keys value fresh hashSeed fuel t key = some t') :
    ¬ HasEmptySlot t' := by
  simp only [SafeCall, not_forall] at hUnsafe
  obtain ⟨a, table, rfl, hTable, hAbsent, hFull, hMany, hNone⟩ := hUnsafe
  have hOk : TableOk keys a present := h
  simp only [StbDsHmSh.insert, Option.map_eq_some_iff] at hInsert
  obtain ⟨a', hPut, rfl⟩ := hInsert
  obtain ⟨table', hIndex, ⟨i, hi, hContent, rfl⟩ | ⟨_, j, hBefore, hEmpty, rfl⟩⟩ :=
    hOk.put_returned hPut
  · exact absurd hContent (hAbsent i hi)
  · obtain rfl : table = table' := by
      have hBelow : ¬ table.usedCount ≥ table.usedCountThreshold := by omega
      simpa only [indexForPut, hTable, if_neg hBelow, Option.some.injEq] using hIndex
    have hTableOk := hOk.index_ok hTable
    have hNoted := (not_congr (noted_iff_meetsTombstone hBefore hEmpty)).mpr hNone
    have hClaimed := hTableOk.claim (a.length - 1) hBefore hEmpty rfl
    rw [not_not.mp hNoted] at hClaimed ⊢
    intro hHas
    obtain ⟨p, hp, hSlot⟩ := hHas _ _ rfl rfl
    obtain ⟨m, _, hSlots, hThreshold, hTombs⟩ := hTableOk.thresholds
    have hFilled := hClaimed.filled_eq
    have hLess := total_filled_lt hp (slotHash_eq_zero_iff.mp hSlot)
    rw [hFilled] at hLess
    have hCounts : table.usedCount + 1 + table.tombstoneCount < table.slotCount := hLess
    omega

end Room

section Runs

variable [DecidableEq β] (keys : KeyAccess K β) (value : V) (fresh : Nat → Element K V)
  (hashSeed : Nat)

/-- With enough fuel these calls on a null table lead to `t`. -/
def Reaches (calls : List (Call K)) (t : Table K V) : Prop :=
  ReturnsTo (fun fuel => StbDsHmSh.run keys value fresh hashSeed fuel calls) t

variable {keys value fresh hashSeed}

theorem Reaches.inv {calls : List (Call K)} {t : Table K V}
    (h : Reaches keys value fresh hashSeed calls t) : TableInv keys t (present keys calls) := by
  obtain ⟨fuel, hRun⟩ := h.exists_fuel
  exact TableInv.run hRun

theorem Reaches.concat {calls : List (Call K)} {call : Call K} {t t' : Table K V}
    (h : Reaches keys value fresh hashSeed calls t)
    (hCall : ReturnsTo (fun fuel => StbDsHmSh.call keys value fresh hashSeed fuel t call) t') :
    Reaches keys value fresh hashSeed (calls ++ [call]) t' := by
  simp only [Reaches, TableInv.run_concat]
  exact h.bind hCall

/-- A run of safe calls reaches a table with an empty slot. -/
theorem reaches_roomy (calls : List (Call K))
    (hSafe : ∀ prior call, prior ++ [call] <+: calls → ∀ t,
      Reaches keys value fresh hashSeed prior t → SafeCall keys t call) :
    ∃ t, Reaches keys value fresh hashSeed calls t ∧ TableRoomy t := by
  induction calls using List.reverseRecOn with
  | nil => exact ⟨none, ReturnsTo.pure _, fun _ _ hNone => by cases hNone⟩
  | append_singleton calls call ih =>
      obtain ⟨t, hReach, hRoomy⟩ := ih fun prior call' hPrior =>
        hSafe prior call' (hPrior.trans (List.prefix_append calls [call]))
      obtain ⟨t', hCall⟩ := call_returns value fresh hReach.inv hRoomy
      obtain ⟨fuel, hReturned⟩ := hCall.exists_fuel
      exact ⟨t', hReach.concat hCall, call_roomy hReach.inv hRoomy
        (hSafe calls call (List.prefix_refl _) t hReach) hReturned⟩

/-- Every state on the way has an empty slot, and every loop from it ends,
exactly when no insertion on the way is unsafe. -/
theorem stbDs_emptySlot_iff_safe (keys : KeyAccess K β) (value : V)
    (fresh : Nat → Element K V) (hashSeed : Nat) (calls : List (Call K)) :
    (∀ prior, prior <+: calls → ∃ t, Reaches keys value fresh hashSeed prior t ∧
        HasEmptySlot t ∧
        ∀ key, (∃ found, ReturnsTo (fun fuel => StbDsHmSh.find keys fresh fuel t key) found) ∧
          (∃ t', ReturnsTo
            (fun fuel => StbDsHmSh.insert keys value fresh hashSeed fuel t key) t') ∧
          ∃ t', ReturnsTo (fun fuel => StbDsHmSh.erase keys hashSeed fuel t key) t') ↔
      ∀ prior call, prior ++ [call] <+: calls → ∀ t,
        Reaches keys value fresh hashSeed prior t → SafeCall keys t call := by
  constructor
  · intro hEmpty prior call hPrior t hReach
    cases call with
    | insert key =>
        by_contra hUnsafe
        obtain ⟨t', hReach', hHas, _⟩ := hEmpty _ hPrior
        obtain ⟨fuel, hBefore, hAfter⟩ := hReach.exists_both hReach'
        rw [TableInv.run_concat, hBefore] at hAfter
        exact insert_full hReach.inv hUnsafe hAfter hHas
    | erase key => trivial
    | find key => trivial
  · intro hSafe prior hPrior
    obtain ⟨t, hReach, hRoomy⟩ := reaches_roomy prior fun before call hBefore =>
      hSafe before call (hBefore.trans hPrior)
    exact ⟨t, hReach, hasEmptySlot_of_roomy hReach.inv hRoomy, fun key =>
      ⟨find_returns fresh hReach.inv hRoomy key, insert_returns hReach.inv hRoomy key,
        erase_returns hReach.inv hRoomy key⟩⟩

end Runs

/-- Seven keys, one erased, and an eighth that hashes to the last empty slot:
no slot is empty, and the search for a ninth key never ends. -/
theorem stbDs_emptySlot_lost :
    ∃ a table,
      StbDsHmSh.run ⟨.binary, id, fun key _ => key + 8⟩ () (fun _ => ⟨0, ()⟩) 0 1
          [.insert 0, .insert 1, .insert 2, .insert 3, .insert 4, .insert 5, .insert 6, .erase 0,
            .insert 7] = some (some a) ∧
        a.hashTable = some table ∧
        (∀ p < table.slotCount, slotHash (table.storage p) ≠ 0) ∧
        ∀ fuel, StbDsHmSh.find ⟨.binary, id, fun key _ => key + 8⟩ (fun _ => ⟨0, ()⟩) fuel
          (some a) 9 = none := by
  refine ⟨_, _, rfl, rfl, by decide, fun fuel => ?_⟩
  exact find_diverges rfl (show _ = 2 ^ (0 + 3) from rfl) (by decide) fuel

end HashBench.StbDs
