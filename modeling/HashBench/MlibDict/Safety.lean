import HashBench.MlibDict.Capacity

/-! Which load factors keep the accesses of a dictionary within its arrays. The
entries are as many as the limit allows, but the index grows by the count; below
9/16 the first entries are used up before it does. -/
namespace HashBench.MlibDict

open Search Triangular OpenAddressing Memory

variable {K V : Type}

/-- A run ends without a fault, or where memory runs out. -/
def Safe (maxLoadFactor : ℚ) (memory : Nat → Freelist K V) (bp : Blueprint K V)
    (ops : List (Op K)) : Prop :=
  ∃ r, ReturnsTo (fun fuel => (Shim.run maxLoadFactor memory bp fuel ops).run) r ∧
    ((∃ map, r = .ok map ∧ map.index.size = map.mask + 1) ∨ r = .error .memoryFull)

theorem safe_of_le {maxLoadFactor : ℚ} (hLow : 9 / 16 ≤ maxLoadFactor) (hHigh : maxLoadFactor < 1)
    (memory : Nat → Freelist K V) (bp : Blueprint K V) (ops : List (Op K)) :
    Safe maxLoadFactor memory bp ops := by
  rcases run_returns hLow hHigh bp memory ops with ⟨map, hRun, _, _, _, hSound⟩ | ⟨hRun, _⟩
  · exact ⟨_, hRun, Or.inl ⟨map, rfl, hSound.index_size⟩⟩
  · exact ⟨_, hRun, Or.inr rfl⟩

/-- A dictionary of the initial size into which `m` keys were inserted. -/
structure Filling (maxLoadFactor : ℚ) (bp : Blueprint K V) (map : Dict K V) (present : K → Bool)
    (m : Nat) : Prop where
  sound : ∃ stored, Sound maxLoadFactor bp map stored [] present
  mask_eq : map.mask = 15
  count_eq : map.count = m
  filled : map.countDelete ≤ m
  room : map.data.size = 3 + upperLimitOf maxLoadFactor 16

namespace Filling

variable {maxLoadFactor : ℚ} {bp : Blueprint K V} {map : Dict K V} {present : K → Bool} {m : Nat}

theorem init (maxLoadFactor : ℚ) (bp : Blueprint K V) (memory : Nat → Freelist K V) :
    Filling maxLoadFactor bp (init maxLoadFactor memory) (fun _ => false) 0 :=
  ⟨⟨0, init_sound maxLoadFactor bp memory⟩, rfl, rfl, le_rfl, rfl⟩

/-- While the index is not grown, a new key takes the next entry. -/
theorem insert (h : Filling maxLoadFactor bp map present m) {key : K} (hAbsent : present key = false)
    (hEmpty : m < 16) (hRoom : m ≤ upperLimitOf maxLoadFactor 16)
    (hSame : m + 1 ≤ 8 ∨ m + 1 < upperLimitOf maxLoadFactor 16) :
    ∃ map', ReturnsTo (fun fuel => (Shim.insert maxLoadFactor bp fuel map key).run) (.ok map') ∧
      Filling maxLoadFactor bp map' (bp.apply present (.insert key)) (m + 1) := by
  obtain ⟨⟨stored, hSound⟩, hMask, hCount, hFilled, hSize⟩ := h
  have hUsed := hSound.entries.freelistCount_eq
  rw [← hSound.count_eq, hCount, List.length_nil] at hUsed
  obtain ⟨map', stored', free', hSound', hMask', hCount', hDelete', hData', hFree', hRun⟩ :=
    hSound.insert_absent (by omega) hAbsent fun _ => by omega
  obtain rfl := hFree' rfl
  have hLimit : map'.upperLimit = upperLimitOf maxLoadFactor 16 := by
    rw [hSound'.upperLimit_eq, hMask', hMask]
  obtain ⟨map'', hCheck, hLast, hMask'', hCount'', hData'', hDelete'', _⟩ :=
    hSound'.checkLimit_same (by omega)
  exact ⟨map'', hRun _ hCheck, ⟨stored', hLast⟩, by omega, by omega, by omega, by omega⟩

/-- Without a free entry the pair of a new key is written past the array. -/
theorem overflow (h : Filling maxLoadFactor bp map present m) {key : K} (hAbsent : present key = false)
    (hEmpty : m < 16) (hFull : upperLimitOf maxLoadFactor 16 < m) :
    ReturnsTo (fun fuel => (Shim.insert maxLoadFactor bp fuel map key).run)
      (.error .dataBounds) := by
  obtain ⟨⟨stored, hSound⟩, hMask, hCount, hFilled, hSize⟩ := h
  have hUsed := hSound.entries.freelistCount_eq
  rw [← hSound.count_eq, hCount, List.length_nil] at hUsed
  obtain ⟨j, _, ⟨_, _, _, _, hPresent, _⟩ | ⟨_, _, hProbe⟩⟩ := hSound.probeFor (by omega) key
    (noteFirst fun p => (map.index.cell p).index == 1) none
  · rw [hAbsent] at hPresent
    cases hPresent
  · refine hProbe.andThen ?_
    simp only [reduceCtorEq, if_false, hSound.storeAt_overflow _ _ _ (show _ ≤ _ by omega)]
    exact ReturnsTo.pure _

/-- With all slots in use the probe for a new key never ends. -/
theorem diverges (h : Filling maxLoadFactor bp map present 16) {key : K} (hAbsent : present key = false)
    (fuel : Nat) : (Shim.insert maxLoadFactor bp fuel map key).run = none := by
  obtain ⟨⟨stored, hSound⟩, hMask, hCount, hFilled, hSize⟩ := h
  have hLive : ∀ p < map.mask + 1, ∃ e ∈ stored, slots map.index p = .live e := fun p hp => by
    have hCard := card_filter_live (slots map.index) (map.mask + 1)
    rw [hSound.counted.contents_eq, ← hSound.count_eq, hCount,
      show 16 = map.mask + 1 by omega] at hCard
    have hAll := Finset.filter_card_eq (hCard.trans (Finset.card_range _).symm) p
      (Finset.mem_range.mpr hp)
    cases hSlot : slots map.index p with
    | empty => simp [hSlot] at hAll
    | deleted => simp [hSlot] at hAll
    | live e => exact ⟨e, hSound.counted.mem_stored.mpr ⟨p, hp, hSlot⟩, rfl⟩
  have hNever (j : Nat) : stops bp map key (probe map.mask (hashOf bp key) j) = false := by
    obtain ⟨e, he, hSlot⟩ := hLive _ (hSound.probe_lt (hashOf bp key) j)
    rw [hSound.stops_eq key (hSound.probe_lt (hashOf bp key) j), hSlot, Slot.stops_live]
    refine Bool.eq_false_iff.mpr fun hAccepts => ?_
    rw [hSound.present_iff.mpr ⟨e, he, hAccepts⟩] at hAbsent
    cases hAbsent
  simp only [Shim.insert, setAt, probeFor, search_diverges hNever]
  rfl

end Filling

/-- Natural numbers as keys, each its own hash. -/
def naturals : Blueprint Nat Unit := .ofEq id ()

/-- The calls that insert the first `m` natural numbers. -/
def inserts (m : Nat) : List (Op Nat) := (List.range m).map .insert

theorem inserts_succ (m : Nat) : inserts (m + 1) = inserts m ++ [.insert m] := by
  rw [inserts, List.range_succ, List.map_append]
  rfl

theorem present_inserts (m k : Nat) : naturals.present (inserts m) k = decide (k < m) := by
  induction m with
  | zero => rfl
  | succ m ih =>
      rw [inserts_succ, Blueprint.present_concat, Bool.eq_iff_iff]
      have hEqual : naturals.cmprKeys m k = decide (m = k) := rfl
      simp only [Blueprint.apply, ih, hEqual, Bool.or_eq_true, decide_eq_true_eq]
      omega

theorem present_inserts_self (m : Nat) : naturals.present (inserts m) m = false := by
  rw [present_inserts, decide_eq_false (lt_irrefl m)]

theorem run_inserts_succ (maxLoadFactor : ℚ) (memory : Nat → Freelist Nat Unit) (fuel m : Nat) :
    Shim.run maxLoadFactor memory naturals fuel (inserts (m + 1)) =
      Shim.run maxLoadFactor memory naturals fuel (inserts m) >>= fun map =>
        Shim.insert maxLoadFactor naturals fuel map m := by
  rw [inserts_succ, Shim.run, List.foldlM_append]
  simp [Shim.run, Shim.call]

/-- A new dictionary takes so many keys before its index may grow. -/
theorem filling_inserts (maxLoadFactor : ℚ) (memory : Nat → Freelist Nat Unit) {m : Nat}
    (hm : m ≤ 16) (hRoom : m ≤ upperLimitOf maxLoadFactor 16 + 1)
    (hSame : m ≤ 8 ∨ m < upperLimitOf maxLoadFactor 16) :
    ∃ map, ReturnsTo (fun fuel => (Shim.run maxLoadFactor memory naturals fuel (inserts m)).run)
        (.ok map) ∧
      Filling maxLoadFactor naturals map (naturals.present (inserts m)) m := by
  induction m with
  | zero => exact ⟨_, ReturnsTo.pure _, Filling.init maxLoadFactor naturals memory⟩
  | succ m ih =>
      obtain ⟨map, hRun, hFilling⟩ := ih (by omega) (by omega) (by omega)
      obtain ⟨map', hInsert, hFilling'⟩ :=
        hFilling.insert (present_inserts_self m) (by omega) (by omega) (by omega)
      refine ⟨map', ?_, ?_⟩
      · simp only [run_inserts_succ]
        exact hRun.andThen hInsert
      · rw [inserts_succ, Blueprint.present_concat]
        exact hFilling'

/-- With a limit below half of the initial slots the entries run out. -/
theorem inserts_overflow {maxLoadFactor : ℚ} (memory : Nat → Freelist Nat Unit) {m : Nat}
    (hm : m ≤ 8) (hLimit : upperLimitOf maxLoadFactor 16 + 1 = m) :
    ReturnsTo (fun fuel => (Shim.run maxLoadFactor memory naturals fuel (inserts (m + 1))).run)
      (.error .dataBounds) := by
  obtain ⟨map, hRun, hFilling⟩ :=
    filling_inserts maxLoadFactor memory (show m ≤ 16 by omega) hLimit.ge (Or.inl hm)
  simp only [run_inserts_succ]
  exact hRun.andThen (hFilling.overflow (present_inserts_self m) (by omega) (by omega))

/-- A limit that wraps around lets the slots run out. -/
theorem inserts_diverge {maxLoadFactor : ℚ} (memory : Nat → Freelist Nat Unit)
    (hLimit : 16 < upperLimitOf maxLoadFactor 16) (r : Except Fault (Dict Nat Unit)) :
    ¬ ReturnsTo (fun fuel => (Shim.run maxLoadFactor memory naturals fuel (inserts 17)).run) r := by
  intro hReturns
  obtain ⟨map, hRun, hFilling⟩ :=
    filling_inserts maxLoadFactor memory le_rfl (by omega) (Or.inr hLimit)
  obtain ⟨fuel, hFirst, hAll⟩ := hRun.exists_both hReturns
  have hNone := hFilling.diverges (present_inserts_self 16) fuel
  rw [run_inserts_succ, ExceptT.run_bind, hFirst] at hAll
  exact absurd (hNone.symm.trans hAll) (by simp)

/-- The limit of a new dictionary, for a load factor below 9/16. -/
theorem upperLimitOf_initial {maxLoadFactor : ℚ} (hPos : 0 < maxLoadFactor)
    (hSmall : maxLoadFactor < 9 / 16) :
    upperLimitOf maxLoadFactor 16 ≤ 7 ∨ 16 < upperLimitOf maxLoadFactor 16 := by
  obtain ⟨hEq, _⟩ := upperLimitOf_eq hPos (by linarith) (Nat.zero_le 27)
  have hBelow : ⌊(2 ^ (0 + 4) : ℚ) * maxLoadFactor⌋₊ < 9 := by
    rw [Nat.floor_lt (by positivity)]
    norm_num
    linarith
  rw [show (16 : Nat) = 2 ^ (0 + 4) from rfl, hEq, indexPred]
  split_ifs with hZero
  · exact Or.inr (by decide)
  · exact Or.inl (by omega)

/-- Every run with every blueprint keeps within the arrays exactly if the load
factor lets the index grow before the entries are used up. -/
theorem mlibDict_safe_iff {maxLoadFactor : ℚ} (hPos : 0 < maxLoadFactor)
    (hHigh : maxLoadFactor < 1) :
    (∀ (K V : Type) (memory : Nat → Freelist K V) (bp : Blueprint K V) (ops : List (Op K)),
      Safe maxLoadFactor memory bp ops) ↔ 9 / 16 ≤ maxLoadFactor := by
  constructor
  · intro hSafe
    by_contra hSmall
    have hRuns (m : Nat) := hSafe Nat Unit (fun _ => .freelist 0) naturals (inserts m)
    rcases upperLimitOf_initial hPos (lt_of_not_ge hSmall) with hFew | hWrapped
    · obtain ⟨r, hReturns, hEnds⟩ := hRuns (upperLimitOf maxLoadFactor 16 + 1 + 1)
      obtain rfl := hReturns.unique (inserts_overflow _ (by omega) rfl)
      simp at hEnds
    · obtain ⟨r, hReturns, _⟩ := hRuns 17
      exact inserts_diverge _ hWrapped r hReturns
  · intro hLow K V memory bp ops
    exact safe_of_le hLow hHigh memory bp ops

/-- With the load factor 7/8 nine keys are stored. -/
theorem mlibDict_safe_seven_eighths :
    Safe (7 / 8) (fun _ => Freelist.freelist 0) naturals (inserts 9) :=
  (mlibDict_safe_iff (by norm_num) (by norm_num)).mpr (by norm_num) Nat Unit _ naturals _

/-- With the load factor 1/2 the ninth key is written past the entries. -/
theorem mlibDict_unsafe_half :
    ¬ Safe (1 / 2) (fun _ => Freelist.freelist 0) naturals (inserts 9) := by
  rintro ⟨r, hReturns, hEnds⟩
  have hLimit : upperLimitOf (1 / 2) 16 + 1 = 8 := by decide +kernel
  obtain rfl := hReturns.unique (inserts_overflow _ le_rfl hLimit)
  simp at hEnds

end HashBench.MlibDict
