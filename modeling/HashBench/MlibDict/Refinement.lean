import HashBench.MlibDict.Capacity

/-! What a dictionary reached by any run does: the lookup written for the shim
agrees with that of the library, and both with the finite map of the calls. -/
namespace HashBench.MlibDict

open Search Triangular Iteration OpenAddressing Memory

variable {K V : Type}

/-- Every entry in use lies either on the freelist, and then no slot refers to
it, or is a pair that one slot refers to. -/
def Referenced (map : Dict K V) : Prop :=
  ∃ free, FreeChain map.data.cell free map.freelistFirstData ∧
    ∀ d, 2 ≤ d → d < map.freelistCount →
      (d ∈ free ∧ ∀ p ≤ map.mask, (map.index.cell p).index ≠ d) ∨
        (d ∉ free ∧ (∃ key, KeyAt map.data.cell d key) ∧
          ∃! p, p ≤ map.mask ∧ (map.index.cell p).index = d)

/-- What the lookups of a key return: the shim's a slot, the library's the entry
that the slot refers to. -/
def LooksUp (bp : Blueprint K V) (map : Dict K V) (key : K) (isPresent : Bool) : Prop :=
  ∃ itr found, ReturnsTo (fun fuel => (Shim.find bp fuel map key).run) (.ok itr) ∧
    ReturnsTo (fun fuel => (get bp fuel map key).run) (.ok found) ∧
    Shim.isItrValid map itr = isPresent ∧
    found = (if isPresent then some (Shim.ref map itr) else none) ∧
    (isPresent = true →
      (∃ k, KeyAt map.data.cell (Shim.ref map itr) k ∧ bp.cmprKeys k key = true) ∧
      Resumes (Shim.isItrValid map) (Shim.incrementItr map) (Shim.getKeyFromItr map)
        (Shim.beginItr map) itr fun found => ∃ k, found = some k ∧ bp.cmprKeys k key = true)

/-- The dictionary is a finite map of these keys. -/
structure Refines (bp : Blueprint K V) (map : Dict K V) (present : K → Bool) : Prop where
  lookup : ∀ key, LooksUp bp map key (present key)
  empty : ∃ p ≤ map.mask, (map.index.cell p).index = 0
  referenced : Referenced map
  scan : ∃ order, bp.Enumerates order present ∧ order.length = map.count ∧
    Visits (Shim.isItrValid map) (Shim.incrementItr map) (Shim.getKeyFromItr map)
      (Shim.beginItr map) (order.map some)

theorem getKeyFromItr_eq_iff {map : Dict K V} {itr : Nat} {key : K} :
    Shim.getKeyFromItr map itr = some key ↔ KeyAt map.data.cell (Shim.ref map itr) key := by
  rw [Shim.getKeyFromItr, KeyAt]
  cases map.data.cell (Shim.ref map itr) <;> simp

theorem isItrValid_eq (map : Dict K V) (itr : Nat) :
    Shim.isItrValid map itr = decide (itr < map.mask + 1) := by
  rw [Shim.isItrValid, ← decide_not, decide_eq_decide]
  omega

theorem isUsed_eq_isLive (map : Dict K V) :
    isUsed map = fun p => (slots map.index p).isLive := funext fun _ => slotOf_isLive.symm

namespace Sound

variable {maxLoadFactor : ℚ} {bp : Blueprint K V} {map : Dict K V}
  {stored : Multiset IndexHash} {free : List Nat} {present : K → Bool} {key : K}

/-- The slots in use are those of the stored entries. -/
theorem isUsed_iff (h : Sound maxLoadFactor bp map stored free present) {p : Nat}
    (hp : p < map.mask + 1) :
    isUsed map p = true ↔ map.index.cell p ∈ stored ∧ slots map.index p = .live (map.index.cell p) := by
  rw [isUsed, decide_eq_true_iff]
  refine ⟨fun hTwo => ?_, fun hLive => (slotOf_eq_live_iff.mp hLive.2).2⟩
  have hLive : slots map.index p = .live (map.index.cell p) := slotOf_live hTwo
  exact ⟨h.counted.mem_stored.mpr ⟨p, hp, hLive⟩, hLive⟩

/-- Two slots that refer to one entry are one. -/
theorem slot_unique (h : Sound maxLoadFactor bp map stored free present) {p q : Nat}
    (hp : p < map.mask + 1) (hq : q < map.mask + 1) (hUsed : isUsed map p = true)
    (hUsed' : isUsed map q = true) (hEq : (map.index.cell p).index = (map.index.cell q).index) :
    p = q := by
  have hNodup := (Multiset.nodup_add.mp h.entries.nodup).1
  rw [← h.counted.contents_eq] at hNodup
  exact OpenAddressing.slot_unique hNodup hp hq ((h.isUsed_iff hp).mp hUsed).2
    ((h.isUsed_iff hq).mp hUsed').2 hEq

theorem referenced (h : Sound maxLoadFactor bp map stored free present) : Referenced map := by
  have hUsed {p d : Nat} (hTwo : 2 ≤ d) (hEq : (map.index.cell p).index = d) :
      isUsed map p = true := decide_eq_true (hEq ▸ hTwo)
  refine ⟨free, h.entries.chain, fun d hTwo hBelow => ?_⟩
  by_cases hFree : d ∈ free
  · refine Or.inl ⟨hFree, fun p hp hEq => ?_⟩
    have hMem := ((h.isUsed_iff (Nat.lt_succ_of_le hp)).mp (hUsed hTwo hEq)).1
    exact h.entries.index_notMem_free hMem (hEq ▸ hFree)
  · obtain ⟨e, he, rfl⟩ := (h.entries.mem_iff.mp ⟨hTwo, hBelow⟩).resolve_right hFree
    obtain ⟨k, hKey, _⟩ := h.entries.entry e he
    obtain ⟨p, hp, hLive⟩ := h.counted.mem_stored.mp he
    have hEq : (map.index.cell p).index = e.index := by rw [(slotOf_eq_live_iff.mp hLive).1]
    refine Or.inr ⟨hFree, ⟨k, hKey⟩, p, ⟨Nat.le_of_lt_succ hp, hEq⟩, ?_⟩
    rintro q ⟨hq, hEq'⟩
    exact h.slot_unique (Nat.lt_succ_of_le hq) hp (hUsed hTwo hEq') (hUsed hTwo hEq)
      (hEq'.trans hEq.symm)

/-- The scan of the index visits each present key once. -/
theorem scan (h : Sound maxLoadFactor bp map stored free present) :
    ∃ order, bp.Enumerates order present ∧ order.length = map.count ∧
      Visits (Shim.isItrValid map) (Shim.incrementItr map) (Shim.getKeyFromItr map)
        (Shim.beginItr map) (order.map some) := by
  have hKey : ∀ p < map.mask + 1, isUsed map p = true → ∃ k, Shim.getKeyFromItr map p = some k := by
    intro p hp hUsed
    obtain ⟨k, hKey, _⟩ := h.entries.entry _ ((h.isUsed_iff hp).mp hUsed).1
    exact ⟨k, getKeyFromItr_eq_iff.mpr hKey⟩
  have hOnce : ∀ p < map.mask + 1, ∀ q < map.mask + 1, isUsed map p = true → isUsed map q = true →
      ∀ k k', Shim.getKeyFromItr map p = some k → Shim.getKeyFromItr map q = some k' →
        bp.cmprKeys k k' = true → p = q := by
    intro p hp q hq hUsed hUsed' k k' hk hk' hEq
    have hSame := h.entries.distinct _ ((h.isUsed_iff hp).mp hUsed).1 _
      ((h.isUsed_iff hq).mp hUsed').1 k k' (getKeyFromItr_eq_iff.mp hk)
      (getKeyFromItr_eq_iff.mp hk') hEq
    exact h.slot_unique hp hq hUsed hUsed' (congrArg IndexHash.index hSame)
  have hPresent (k : K) : present k = true ↔ ∃ p < map.mask + 1, isUsed map p = true ∧
      ∃ k', Shim.getKeyFromItr map p = some k' ∧ bp.cmprKeys k' k = true := by
    rw [h.entries.present_iff]
    constructor
    · rintro ⟨e, he, k', hKey, hEq⟩
      obtain ⟨p, hp, hLive⟩ := h.counted.mem_stored.mp he
      obtain ⟨rfl, _⟩ := slotOf_eq_live_iff.mp hLive
      exact ⟨p, hp, (h.isUsed_iff hp).mpr ⟨he, hLive⟩, k', getKeyFromItr_eq_iff.mpr hKey, hEq⟩
    · rintro ⟨p, hp, hUsed, k', hk', hEq⟩
      exact ⟨_, ((h.isUsed_iff hp).mp hUsed).1, k', getKeyFromItr_eq_iff.mp hk', hEq⟩
  obtain ⟨order, hOrder, hEq⟩ := bp.enumerates_cells _ _ _ hKey hOnce hPresent
  refine ⟨order, hOrder, ?_, ?_⟩
  · have hCount := congrArg Multiset.card (Counted.coe_usedFrom (fun p => map.index.cell p) id
      (slots map.index) (map.mask + 1) fun p _ e hLive => (slotOf_eq_live_iff.mp hLive).1)
    rw [h.counted.contents_eq, Multiset.coe_card, List.length_map, Multiset.card_map,
      ← h.count_eq] at hCount
    rw [← hCount, ← List.length_map (f := some), hEq, List.length_map, isUsed_eq_isLive]
  · rw [hEq, ← usedFrom_skip]
    exact visits_usedFrom _ (isItrValid_eq map) (fun _ => rfl) (used_skip 0)

/-- With an empty slot both lookups end, with the same answer. -/
theorem looksUp (h : Sound maxLoadFactor bp map stored free present)
    (hEmpty : map.countDelete < map.mask + 1) (key : K) : LooksUp bp map key (present key) := by
  obtain ⟨j, _, ⟨e, he, hLive, hAccepts, hPresent, hProbe⟩ | ⟨hSlot, hAbsent, hProbe⟩⟩ :=
    h.probeFor hEmpty key (fun _ acc => acc) ()
  · have hp := h.probe_lt (hashOf bp key) j
    obtain ⟨rfl, _⟩ := slotOf_eq_live_iff.mp hLive
    have hUsed := (h.isUsed_iff hp).mpr ⟨he, hLive⟩
    obtain ⟨k, hKey, hEq⟩ := (h.accepts_iff he).mp hAccepts
    rw [hPresent]
    refine ⟨probe map.mask (hashOf bp key) j, some (Shim.ref map (probe map.mask (hashOf bp key) j)),
      hProbe.andThen ?_, hProbe.andThen ?_, ?_, rfl, fun _ => ⟨⟨k, hKey, hEq⟩, ?_⟩⟩
    · exact ReturnsTo.pure _
    · exact ReturnsTo.pure _
    · rw [isItrValid_eq, decide_eq_true hp]
    · exact resumes_usedFrom _ (isItrValid_eq map) (fun _ => rfl) hp hUsed
        ⟨k, getKeyFromItr_eq_iff.mpr hKey, hEq⟩
  · rw [hAbsent]
    refine ⟨map.mask + 1, none, hProbe.andThen (ReturnsTo.pure _), hProbe.andThen (ReturnsTo.pure _),
      ?_, rfl, fun hPresent => by cases hPresent⟩
    rw [isItrValid_eq, decide_eq_false (lt_irrefl _)]

theorem refines (h : Sound maxLoadFactor bp map stored free present) (hFits : Fits map)
    (hLow : 9 / 16 ≤ maxLoadFactor) (hHigh : maxLoadFactor < 1) : Refines bp map present := by
  have hFilled := hFits.filled
  have hTop := (h.limit_bounds hLow hHigh).2
  have hEmpty : map.countDelete < map.mask + 1 := by omega
  refine ⟨h.looksUp hEmpty, ?_, h.referenced, h.scan⟩
  obtain ⟨p, hp, hSlot⟩ := exists_empty (h.counted.filled_eq ▸ hEmpty)
  refine ⟨p, Nat.le_of_lt_succ hp, ?_⟩
  have hZero := slotOf_isEmpty (s := map.index.cell p)
  rw [show slotOf (map.index.cell p) = .empty from hSlot, Slot.isEmpty_empty, eq_comm,
    beq_iff_eq] at hZero
  exact hZero

end Sound

/-- A run reaches a dictionary that is the finite map of its calls, unless
memory runs out where 2 ^ 30 keys or more are present and one more is inserted. -/
def RunRefines (maxLoadFactor : ℚ) (memory : Nat → Freelist K V) (bp : Blueprint K V)
    (ops : List (Op K)) : Prop :=
  (∃ map, ReturnsTo (fun fuel => (Shim.run maxLoadFactor memory bp fuel ops).run) (.ok map) ∧
      Refines bp map (bp.present ops)) ∨
    ReturnsTo (fun fuel => (Shim.run maxLoadFactor memory bp fuel ops).run) (.error .memoryFull) ∧
      ∃ before key after, ops = before ++ .insert key :: after ∧ bp.present before key = false ∧
        ∃ order, bp.Enumerates order (bp.present before) ∧ 2 ^ 30 ≤ order.length

/-- Every run refines the finite map. -/
theorem mlibDict_refines {maxLoadFactor : ℚ} (hLow : 5 / 8 ≤ maxLoadFactor)
    (hHigh : maxLoadFactor < 1) (memory : Nat → Freelist K V) (bp : Blueprint K V)
    (ops : List (Op K)) : RunRefines maxLoadFactor memory bp ops := by
  have hLow' : 9 / 16 ≤ maxLoadFactor := by linarith
  rcases run_returns hLow' hHigh bp memory ops with ⟨map, hRun, hFits, stored, free, hSound⟩ |
    ⟨hRun, before, key, after, hSplit, hAbsent, map, ⟨hFits, stored, free, hSound⟩, hMany⟩
  · exact Or.inl ⟨map, hRun, hSound.refines hFits hLow' hHigh⟩
  · obtain ⟨order, hOrder, hLength, _⟩ := hSound.scan
    exact Or.inr ⟨hRun, before, key, after, hSplit, hAbsent, order, hOrder, hLength ▸ hMany⟩

/-- With the load factor of the benchmark, for two keys of one hash. -/
theorem mlibDict_refines_collision :
    RunRefines (7 / 8) (fun _ => Freelist.freelist 0) (Blueprint.ofEq (fun _ => 3) ())
      [.insert 5, .insert 6, .erase 5] :=
  mlibDict_refines (by norm_num) (by norm_num) _ _ _

end HashBench.MlibDict
