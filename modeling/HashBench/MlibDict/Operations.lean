import HashBench.MlibDict.Entries

/-! The operations of a dictionary under its invariant: what the probe for a
key finds, and what insertion, erasure and the resizes keep. -/
namespace HashBench.MlibDict

open Search Triangular OpenAddressing Memory

variable {K V : Type}

/-- The invariant of a dictionary. It does not bound the number of entries. -/
structure Sound (maxLoadFactor : ℚ) (bp : Blueprint K V) (map : Dict K V)
    (stored : Multiset IndexHash) (free : List Nat) (present : K → Bool) : Prop where
  size : ∃ k ≤ 27, map.mask + 1 = 2 ^ (k + 4)
  index_size : map.index.size = map.mask + 1
  counted : Counted (slotSeq map.mask) (slots map.index) (map.mask + 1) map.countDelete stored
  count_eq : map.count = stored.card
  upperLimit_eq : map.upperLimit = upperLimitOf maxLoadFactor (map.mask + 1)
  lowerLimit_eq : map.lowerLimit = lowerLimitOf (map.mask + 1)
  entries : Entries bp map.data.cell map.freelistFirstData map.freelistCount stored free present
  capacity : map.freelistCount ≤ map.data.size

/-- Whether the probe for a key stops at this entry. -/
def accepts (bp : Blueprint K V) (cell : Nat → Freelist K V) (key : K) (e : IndexHash) : Bool :=
  decide (hashOf bp key = e.hash) &&
    match cell e.index with
    | .pair k _ => bp.cmprKeys k key
    | .freelist _ => false

theorem accepts_iff {bp : Blueprint K V} {cell : Nat → Freelist K V} {key : K} {e : IndexHash} :
    accepts bp cell key e = true ↔
      hashOf bp key = e.hash ∧ ∃ k, KeyAt cell e.index k ∧ bp.cmprKeys k key = true := by
  rw [accepts, Bool.and_eq_true, decide_eq_true_iff]
  refine and_congr_right fun _ => ?_
  cases hCell : cell e.index with
  | freelist next =>
      refine ⟨fun h => (by cases h), ?_⟩
      rintro ⟨k, ⟨v, hv⟩, _⟩
      rw [hCell] at hv
      cases hv
  | pair k v =>
      refine ⟨fun h => ⟨k, ⟨v, hCell⟩, h⟩, ?_⟩
      rintro ⟨k', ⟨v', hv⟩, hEq⟩
      rw [hCell, Freelist.pair.injEq] at hv
      exact hv.1 ▸ hEq

theorem hashOf_congr {bp : Blueprint K V} {k k' : K} (h : bp.cmprKeys k k' = true) :
    hashOf bp k = hashOf bp k' := by
  rw [hashOf, hashOf, bp.hashKey_congr h]

namespace Sound

variable {maxLoadFactor : ℚ} {bp : Blueprint K V} {map : Dict K V}
  {stored : Multiset IndexHash} {free : List Nat} {present : K → Bool} {key : K}

theorem probe_lt (h : Sound maxLoadFactor bp map stored free present) (hash j : Nat) :
    probe map.mask hash j < map.mask + 1 := by
  obtain ⟨k, _, hSize⟩ := h.size
  exact Triangular.probe_lt hSize hash j

/-- An entry with the key of a search is accepted by it. -/
theorem accepts_iff (h : Sound maxLoadFactor bp map stored free present) {e : IndexHash}
    (he : e ∈ stored) : accepts bp map.data.cell key e = true ↔
      ∃ k, KeyAt map.data.cell e.index k ∧ bp.cmprKeys k key = true := by
  rw [MlibDict.accepts_iff]
  refine ⟨And.right, fun hKey => ⟨?_, hKey⟩⟩
  obtain ⟨k, hAt, hEq⟩ := hKey
  obtain ⟨k', hAt', hHash⟩ := h.entries.entry e he
  rw [hHash, ← hAt.unique hAt', hashOf_congr hEq]

/-- The present keys are those that some entry has. -/
theorem present_iff (h : Sound maxLoadFactor bp map stored free present) :
    present key = true ↔ ∃ e ∈ stored, accepts bp map.data.cell key e = true := by
  rw [h.entries.present_iff]
  refine exists_congr fun e => and_congr_right fun he => ?_
  exact (h.accepts_iff he).symm

/-- The entry that a slot refers to is a pair within the array. -/
theorem readPair (h : Sound maxLoadFactor bp map stored free present) {e : IndexHash}
    (he : e ∈ stored) : ∃ k v, map.data.cell e.index = .pair k v ∧
      readPair map e.index = .ok (k, v) ∧ 2 ≤ e.index ∧ e.index < map.data.size := by
  obtain ⟨k, ⟨v, hCell⟩, _⟩ := h.entries.entry e he
  obtain ⟨hTwo, hBelow⟩ := (h.entries.mem_iff (d := e.index)).mpr (Or.inl ⟨e, he, rfl⟩)
  have hIn := hBelow.trans_le h.capacity
  refine ⟨k, v, hCell, ?_, hTwo, hIn⟩
  rw [MlibDict.readPair, Buffer.read_of_lt _ hIn, hCell]
  rfl

/-- One round of a probe stays within the arrays. -/
theorem inspect_eq (h : Sound maxLoadFactor bp map stored free present) (key : K) {p : Nat}
    (hp : p < map.mask + 1) :
    inspect bp map key p = .ok (match slots map.index p with
      | .empty => .empty
      | .deleted => .next
      | .live e => if accepts bp map.data.cell key e then .found else .next) := by
  have hRead : map.index.read Fault.indexBounds p = .ok (map.index.cell p) :=
    Buffer.read_of_lt _ (h.index_size ▸ hp)
  simp only [inspect, hRead, bind, Except.bind]
  by_cases hMatch : hashOf bp key = (map.index.cell p).hash ∧ 2 ≤ (map.index.cell p).index
  · have hLive : slots map.index p = .live (map.index.cell p) := slotOf_live hMatch.2
    have hMem := h.counted.mem_stored.mpr ⟨p, hp, hLive⟩
    obtain ⟨k, v, hCell, hPair, _⟩ := h.readPair hMem
    rw [if_pos hMatch, hPair, hLive]
    simp only [accepts, hMatch.1, decide_true, Bool.true_and, hCell]
    rfl
  · rw [if_neg hMatch]
    cases hSlot : slots map.index p with
    | empty =>
        have hZero := slotOf_isEmpty (s := map.index.cell p)
        rw [show slotOf (map.index.cell p) = .empty from hSlot, Slot.isEmpty_empty, eq_comm,
          beq_iff_eq] at hZero
        rw [if_pos hZero]
        rfl
    | deleted =>
        have hOne := slotOf_isDeleted (s := map.index.cell p)
        rw [show slotOf (map.index.cell p) = .deleted from hSlot, Slot.isDeleted_deleted, eq_comm,
          beq_iff_eq] at hOne
        rw [if_neg (by omega)]
        rfl
    | live e =>
        obtain ⟨rfl, hTwo⟩ := slotOf_eq_live_iff.mp hSlot
        have hHash : hashOf bp key ≠ (map.index.cell p).hash := fun hEq => hMatch ⟨hEq, hTwo⟩
        rw [if_neg (by omega)]
        simp only [accepts, decide_eq_false hHash, Bool.false_and, Bool.false_eq_true, if_false]
        rfl

theorem stops_eq (h : Sound maxLoadFactor bp map stored free present) (key : K) {p : Nat}
    (hp : p < map.mask + 1) :
    stops bp map key p = (slots map.index p).stops (accepts bp map.data.cell key) := by
  rw [stops, h.inspect_eq key hp]
  cases slots map.index p with
  | empty => rfl
  | deleted => rfl
  | live e => cases hAccepts : accepts bp map.data.cell key e <;> simp [hAccepts]

/-- With an empty slot a probe loop ends: at the slot of its key, or at the
first empty slot if the key is absent. -/
theorem probeFor (h : Sound maxLoadFactor bp map stored free present)
    (hRoom : map.countDelete < map.mask + 1) (key : K) {σ : Type} (update : Nat → σ → σ)
    (acc : σ) :
    ∃ j, (∀ i < j, slots map.index (probe map.mask (hashOf bp key) i) ≠ .empty) ∧
      ((∃ e ∈ stored, slots map.index (probe map.mask (hashOf bp key) j) = .live e ∧
          accepts bp map.data.cell key e = true ∧ present key = true ∧
          ReturnsTo (fun fuel => (MlibDict.probeFor bp update acc fuel map key).run)
            (.ok (probe map.mask (hashOf bp key) j, .found,
              trail update (probe map.mask (hashOf bp key)) j acc))) ∨
        (slots map.index (probe map.mask (hashOf bp key) j) = .empty ∧ present key = false ∧
          ReturnsTo (fun fuel => (MlibDict.probeFor bp update acc fuel map key).run)
            (.ok (probe map.mask (hashOf bp key) j, .empty,
              trail update (probe map.mask (hashOf bp key)) j acc)))) := by
  obtain ⟨k, _, hSize⟩ := h.size
  have hHit : ∀ e ∈ stored, accepts bp map.data.cell key e = true →
      slotSeq map.mask e = probe map.mask (hashOf bp key) := fun e he hAccepts => by
    rw [slotSeq, (MlibDict.accepts_iff.mp hAccepts).1]
  obtain ⟨j, hSearch, hBefore, hEnd⟩ := h.counted.lookup hRoom (h.probe_lt (hashOf bp key))
    (fun p => exists_probe hSize (hashOf bp key)) hHit (fun p hp => h.stops_eq key hp)
    update acc
  have hRun := hSearch.map fun found => (do
    let p := probe map.mask (hashOf bp key) found.1
    let verdict ← inspect bp map key p
    return (p, verdict, found.2) : Except Fault (Nat × Verdict × σ))
  dsimp only at hRun
  rw [h.inspect_eq key (h.probe_lt (hashOf bp key) j)] at hRun
  refine ⟨j, hBefore, ?_⟩
  rcases hEnd with ⟨e, he, hLive, hAccepts⟩ | ⟨hEmpty, hNone⟩
  · refine Or.inl ⟨e, he, hLive, hAccepts, h.present_iff.mpr ⟨e, he, hAccepts⟩, ?_⟩
    rw [hLive] at hRun
    simp only [hAccepts, if_true] at hRun
    exact hRun
  · refine Or.inr ⟨hEmpty, Bool.eq_false_iff.mpr fun hPresent => ?_, ?_⟩
    · obtain ⟨e, he, hAccepts⟩ := h.present_iff.mp hPresent
      rw [hNone e he] at hAccepts
      cases hAccepts
    · rw [hEmpty] at hRun
      exact hRun

/-- An entry for a new pair: the first one of the freelist, or the next one
that was never in use. -/
theorem getFreeBucket (h : Sound maxLoadFactor bp map stored free present)
    (hFit : free = [] → map.freelistCount < map.data.size) :
    ∃ d first' freelistCount' free',
      getFreeBucket map = .ok (d, { map with
        freelistFirstData := first', freelistCount := freelistCount' }) ∧
      FreeChain map.data.cell free' first' ∧ d ∉ free' ∧ (∀ e ∈ stored, e.index ≠ d) ∧
      (∃ m, freelistCount' = m + 2 ∧ d ::ₘ (stored.map IndexHash.index +
        (free' : Multiset Nat)) = (Multiset.range m).map (· + 2)) ∧
      2 ≤ d ∧ d < map.data.size ∧ freelistCount' ≤ map.data.size ∧ (free = [] → free' = []) := by
  obtain ⟨m, hm, hPartition⟩ := h.entries.partition
  have hChain := h.entries.chain
  cases free with
  | nil =>
      have hFirst : map.freelistFirstData = 0 := hChain
      have hBelow := hFit rfl
      refine ⟨map.freelistCount, map.freelistFirstData, map.freelistCount + 1, [], ?_, hChain,
        List.not_mem_nil, fun e he hEq => ?_, ⟨m + 1, by omega, ?_⟩, by omega, hBelow, hBelow,
        fun _ => rfl⟩
      · rw [MlibDict.getFreeBucket, if_neg (not_not.mpr hFirst)]
      · have hUsed := ((h.entries.mem_iff (d := e.index)).mpr (Or.inl ⟨e, he, rfl⟩)).2
        omega
      · rw [hPartition, Multiset.range_succ, Multiset.map_cons, hm]
  | cons d rest =>
      obtain ⟨hd, hZero, next, hCell, hRest⟩ := hChain
      have hMem : d ∈ d :: rest := List.mem_cons_self
      obtain ⟨hTwo, hBelow⟩ := (h.entries.mem_iff (d := d)).mpr (Or.inr hMem)
      have hNodup := (Multiset.nodup_add.mp h.entries.nodup).2.1
      rw [Multiset.coe_nodup, List.nodup_cons] at hNodup
      have hIn := hBelow.trans_le h.capacity
      refine ⟨d, next, map.freelistCount, rest, ?_, hRest, hNodup.1, fun e he hEq => ?_,
        ⟨m, hm, ?_⟩, hTwo, hIn, h.capacity, fun hNil => by cases hNil⟩
      · rw [MlibDict.getFreeBucket, if_pos (hd.trans_ne hZero), hd, Buffer.read_of_lt _ hIn, hCell]
        rfl
      · exact h.entries.index_notMem_free he (hEq ▸ hMem)
      · rw [← hPartition, ← Multiset.cons_coe, Multiset.add_cons]

/-- A pair is stored where the probe for its key ended. -/
theorem storeAt (h : Sound maxLoadFactor bp map stored free present) (value : V) {j : Nat}
    (hBefore : ∀ i < j, slots map.index (probe map.mask (hashOf bp key) i) ≠ .empty)
    (hEmpty : slots map.index (probe map.mask (hashOf bp key) j) = .empty)
    (hAbsent : present key = false) {noted : Option Nat}
    (hNoted : noted = trail (noteFirst fun p => (map.index.cell p).index == 1)
      (probe map.mask (hashOf bp key)) j none)
    (hFit : free = [] → map.freelistCount < map.data.size) :
    ∃ map' stored' free',
      storeAt bp map key value (probe map.mask (hashOf bp key) j) noted = .ok map' ∧
      Sound maxLoadFactor bp map' stored' free' (bp.apply present (.insert key)) ∧
      map'.mask = map.mask ∧ map'.count = map.count + 1 ∧
      map'.countDelete = (if noted = none then map.countDelete else map.countDelete - 1) + 1 ∧
      map'.data.size = map.data.size ∧ (free = [] → free' = []) := by
  obtain ⟨d, first', freelistCount', free', hBucket, hChain, hNew, hFresh, hPartition, hTwo, hIn,
    hCapacity, hNil⟩ := h.getFreeBucket hFit
  obtain ⟨hCounted, hSlot, _⟩ := h.counted.claim (e := ⟨d, hashOf bp key⟩)
    (h.probe_lt (hashOf bp key)) hBefore hEmpty (fun p _ => slotOf_isDeleted.symm) hNoted
  have hWrite := Buffer.write_of_lt Fault.dataBounds hIn (.pair key value)
  have hIndex : noted.getD (probe map.mask (hashOf bp key) j) < map.index.size :=
    h.index_size ▸ hSlot
  have hWriteIndex := Buffer.write_of_lt Fault.indexBounds hIndex ⟨d, hashOf bp key⟩
  refine ⟨{ map with
      data := map.data.set d (.pair key value)
      index := map.index.set (noted.getD (probe map.mask (hashOf bp key) j)) ⟨d, hashOf bp key⟩
      freelistFirstData := first'
      freelistCount := freelistCount'
      count := map.count + 1
      countDelete := (if noted = none then map.countDelete else map.countDelete - 1) + 1 },
    _, free', ?_, ⟨h.size, h.index_size, ?_, ?_, h.upperLimit_eq, h.lowerLimit_eq,
      h.entries.add hAbsent hChain hNew hFresh hPartition, hCapacity⟩, rfl, rfl, rfl, rfl, hNil⟩
  · simp only [MlibDict.storeAt, hBucket, bind, Except.bind, hWrite, hWriteIndex]
    rfl
  · rw [slots_set, slotOf_live hTwo]
    exact hCounted
  · rw [Multiset.card_cons, ← h.count_eq]

/-- Without a freelist and without room the store is out of bounds. -/
theorem storeAt_overflow (h : Sound maxLoadFactor bp map stored [] present) (value : V) (p : Nat)
    (noted : Option Nat) (hFull : map.data.size ≤ map.freelistCount) :
    MlibDict.storeAt bp map key value p noted = .error .dataBounds := by
  have hFirst : map.freelistFirstData = 0 := h.entries.chain
  have hWrite : map.data.write Fault.dataBounds map.freelistCount (.pair key value) =
      .error .dataBounds := if_neg (Nat.not_lt_of_le hFull)
  simp only [MlibDict.storeAt, MlibDict.getFreeBucket, hFirst, ne_eq, not_true_eq_false, if_false,
    bind, Except.bind, hWrite]

/-- The entries allocated once the dictionary has grown. -/
theorem enlarge_data (maxLoadFactor : ℚ) (map : Dict K V) (newSize : Nat) :
    (enlarge maxLoadFactor map newSize).data.cell = map.data.cell ∧
      (map.freelistCount ≤ map.data.size →
        map.freelistCount ≤ (enlarge maxLoadFactor map newSize).data.size) := by
  unfold enlarge
  by_cases hGrow : newSize > map.mask + 1
  · simp only [if_pos hGrow, extend]
    by_cases hRealloc : (1 + 2 + (updateLimit maxLoadFactor map newSize).upperLimit) % 2 ^ 32 >
        (updateLimit maxLoadFactor map newSize).freelistCount
    · simp only [if_pos hRealloc]
      refine ⟨rfl, fun _ => ?_⟩
      exact hRealloc.le.trans (Nat.mod_le _ _)
    · simp only [if_neg hRealloc]
      exact ⟨rfl, id⟩
  · simp only [if_neg hGrow]
    exact ⟨rfl, id⟩

theorem enlarge_fields (maxLoadFactor : ℚ) (map : Dict K V) (newSize : Nat) :
    (enlarge maxLoadFactor map newSize).freelistFirstData = map.freelistFirstData ∧
      (enlarge maxLoadFactor map newSize).freelistCount = map.freelistCount ∧
      (enlarge maxLoadFactor map newSize).upperLimit = upperLimitOf maxLoadFactor newSize ∧
      (enlarge maxLoadFactor map newSize).lowerLimit = lowerLimitOf newSize := by
  unfold enlarge
  by_cases hGrow : newSize > map.mask + 1
  · simp only [if_pos hGrow, extend]
    exact ⟨rfl, rfl, rfl, rfl⟩
  · simp only [if_neg hGrow]
    exact ⟨rfl, rfl, rfl, rfl⟩

/-- A resize up keeps the entries and leaves no tombstone. -/
theorem resizeUp (h : Sound maxLoadFactor bp map stored free present) {newSize : Nat}
    (hNew : ∃ k ≤ 27, newSize = 2 ^ (k + 4)) (hLe : map.mask + 1 ≤ newSize)
    (hRoom : map.count ≤ newSize) :
    ∃ map', ReturnsTo (fun fuel => (resizeUp maxLoadFactor fuel map newSize).run) (.ok map') ∧
      Sound maxLoadFactor bp map' stored free present ∧ map'.mask + 1 = newSize ∧
      map'.count = map.count ∧ map'.countDelete = map.count ∧
      map'.data.size = (enlarge maxLoadFactor map newSize).data.size := by
  obtain ⟨k, hk, hSize⟩ := hNew
  obtain ⟨index', hRun, hIndexSize, hCounted⟩ := resizeUp_spec maxLoadFactor
    h.index_size hSize hLe h.counted.contents_eq (h.count_eq ▸ hRoom)
  have hMask : newSize - 1 + 1 = newSize := (mask_succ hSize).trans hSize.symm
  obtain ⟨hCell, hCapacity⟩ := enlarge_data maxLoadFactor map newSize
  obtain ⟨hFirst, hFreeCount, hUpper, hLower⟩ :=
    enlarge_fields maxLoadFactor map newSize
  refine ⟨_, hRun, ?_, hMask, enlarge_count .., rfl, rfl⟩
  refine ⟨⟨k, hk, hMask.trans hSize⟩, hIndexSize.trans hMask.symm, ?_,
    (enlarge_count ..).trans h.count_eq, hUpper.trans (by rw [hMask]), hLower.trans (by rw [hMask]),
    ?_, ?_⟩
  · dsimp only
    rw [hMask, h.count_eq]
    exact hCounted
  · dsimp only
    rw [hCell, hFirst, hFreeCount]
    exact h.entries
  · dsimp only
    rw [hFreeCount]
    exact hCapacity h.capacity

/-- A resize down keeps the entries and leaves no tombstone. -/
theorem resizeDown (h : Sound maxLoadFactor bp map stored free present) {newSize k : Nat}
    (hk : k ≤ 27) (hNew : newSize = 2 ^ (k + 4)) (hLess : newSize < map.mask + 1)
    (hRoom : map.count ≤ newSize) :
    ∃ map', ReturnsTo (fun fuel => (resizeDown maxLoadFactor fuel map newSize).run) (.ok map') ∧
      Sound maxLoadFactor bp map' stored free present ∧ map'.mask + 1 = newSize ∧
      map'.count = map.count ∧ map'.countDelete = map.count ∧
      map'.data.size = map.data.size := by
  have hInitial : initialSize ≤ newSize := by
    rw [hNew]
    exact Nat.pow_le_pow_right Nat.zero_lt_two (Nat.le_add_left 4 k)
  obtain ⟨index', hRun, hIndexSize, hCounted⟩ := resizeDown_spec maxLoadFactor
    h.index_size hNew hInitial hLess h.counted.contents_eq (h.count_eq ▸ hRoom)
  have hMask : newSize - 1 + 1 = newSize := (mask_succ hNew).trans hNew.symm
  refine ⟨_, hRun, ⟨⟨k, hk, hMask.trans hNew⟩, hIndexSize.trans hMask.symm, ?_, h.count_eq, ?_, ?_,
    h.entries, h.capacity⟩, hMask, rfl, rfl, rfl⟩
  · dsimp only
    rw [hMask, h.count_eq]
    exact hCounted
  · dsimp only
    rw [hMask]
    rfl
  · dsimp only
    rw [hMask]
    rfl

/-- The entry in a slot is taken out, and left to the freelist. -/
theorem removeAt {e : IndexHash} (h : Sound maxLoadFactor bp map (e ::ₘ stored) free present)
    {p : Nat} (hp : p < map.mask + 1) (hSlot : slots map.index p = .live e)
    (hAccepts : accepts bp map.data.cell key e = true) :
    ∃ map', removeAt map p = .ok map' ∧
      Sound maxLoadFactor bp map' stored (e.index :: free) (bp.apply present (.erase key)) ∧
      map'.mask = map.mask ∧ map'.count + 1 = map.count ∧ map'.countDelete = map.countDelete ∧
      map'.data.size = map.data.size := by
  have hMem : e ∈ e ::ₘ stored := Multiset.mem_cons_self ..
  obtain ⟨rfl, hTwo⟩ := slotOf_eq_live_iff.mp hSlot
  obtain ⟨k, hKey, hEq⟩ := (h.accepts_iff hMem).mp hAccepts
  obtain ⟨_, _, _, _, _, hInData⟩ := h.readPair hMem
  have hIn : p < map.index.size := h.index_size ▸ hp
  have hWrite := Buffer.write_of_lt Fault.dataBounds hInData (.freelist map.freelistFirstData)
  have hWriteIndex := Buffer.write_of_lt Fault.indexBounds hIn
    { map.index.cell p with index := 1 }
  have hCount := h.count_eq
  rw [Multiset.card_cons] at hCount
  refine ⟨{ map with
      data := map.data.set (map.index.cell p).index (.freelist map.freelistFirstData)
      freelistFirstData := (map.index.cell p).index
      index := map.index.set p { map.index.cell p with index := 1 }
      count := map.count - 1 },
    ?_, ⟨h.size, h.index_size, ?_, by simp [hCount], h.upperLimit_eq, h.lowerLimit_eq,
      h.entries.release hKey hEq, h.capacity⟩, rfl, by simp [hCount], rfl, rfl⟩
  · simp only [MlibDict.removeAt, releaseBucket, Buffer.read_of_lt _ hIn, bind, Except.bind, hWrite,
      pure, Except.pure, hWriteIndex]
  · rw [slots_set]
    exact h.counted.bury hp hSlot

end Sound

end HashBench.MlibDict
