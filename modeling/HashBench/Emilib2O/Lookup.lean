import HashBench.Emilib2O.Probe
import HashBench.Library.Grouped

/-! The buckets of a table as an open-addressing table, and the search for a
key. What holds of every table that a run reaches is kept apart from what
holds as long as no key is lost. -/
namespace HashBench.Emilib2O

open Search OpenAddressing

variable {K V : Type}

/-- What the state of a bucket says of it. -/
def slots (t : Table K V) (b : Nat) : Slot (K × V) :=
  if t.isFilled b = true then .live (t.pairs b)
  else if t.isEmpty b = true then .empty
  else .deleted

/-- The buckets that a round of a probe reads. -/
def Within (numBuckets main round b : Nat) : Prop :=
  InGroup (walk numBuckets main 0 round) b ∧ b < numBuckets

/-- What holds of every table, also one that has lost keys. -/
structure WellFormed (bp : Blueprint K V) (t : Table K V) : Prop where
  size : ∃ k ≤ 26, t.numBuckets = 2 ^ (k + 4)
  outside : ∀ b, t.numBuckets ≤ b → b < t.numBuckets + simdBytes → t.states b = sentinel
  states : ∀ b < t.numBuckets,
    t.states b = eEmpty ∨ t.states b = eDelete ∨ t.states b = keyH2 bp (t.pairs b).1
  values : ∀ e ∈ contents (slots t) t.numBuckets, e.2 = bp.valueType
  count : (contents (slots t) t.numBuckets).card = t.numFilled
  load : 8 * t.numFilled ≤ 7 * t.numBuckets
  byte : ∀ c, t.offset c < 2 ^ 8

section Slots

variable {bp : Blueprint K V} {t : Table K V} {b : Nat}

theorem keyH2_bounds (bp : Blueprint K V) (key : K) :
    eFilled ≤ keyH2 bp key ∧ keyH2 bp key < sentinel := by
  rw [keyH2, eFilled, sentinel]
  omega

theorem keyH2_congr {key key' : K} (h : bp.cmprKeys key key' = true) :
    keyH2 bp key = keyH2 bp key' := by rw [keyH2, keyH2, bp.hashKey_congr h]

theorem mainBucket_congr {key key' : K} (h : bp.cmprKeys key key' = true) :
    mainBucket bp t key = mainBucket bp t key' := by
  rw [mainBucket, mainBucket, bp.hashKey_congr h]

theorem slots_eq_live_iff {e : K × V} :
    slots t b = .live e ↔ t.isFilled b = true ∧ t.pairs b = e := by
  unfold slots
  split_ifs with hFilled hEmpty <;> simp [*]

/-- Only the state and the pair of a bucket matter. -/
theorem slots_congr {t' : Table K V} (hState : t'.states b = t.states b)
    (hPair : t'.pairs b = t.pairs b) : slots t' b = slots t b := by
  have hFilled : t'.isFilled b = t.isFilled b := by rw [Table.isFilled, Table.isFilled, hState]
  have hEmpty : t'.isEmpty b = t.isEmpty b := by rw [Table.isEmpty, Table.isEmpty, hState]
  rw [slots, slots, hFilled, hEmpty, hPair]

theorem slots_isLive (t : Table K V) (b : Nat) : (slots t b).isLive = t.isFilled b := by
  unfold slots
  split_ifs with hFilled hEmpty <;> simp_all

/-- The lanes of `empty_delete` are those without an entry. -/
theorem emptyDelete_eq (t : Table K V) (b : Nat) : t.emptyDelete b = !(slots t b).isLive := by
  rw [slots_isLive, Table.emptyDelete, Table.isFilled, Bool.eq_iff_iff, Bool.not_eq_true',
    decide_eq_true_eq, decide_eq_false_iff_not, not_le]

theorem isEmpty_iff : t.isEmpty b = true ↔ slots t b = .empty := by
  unfold slots
  split_ifs with hFilled hEmpty
  · rw [Table.isFilled, decide_eq_true_eq] at hFilled
    simp only [Table.isEmpty, beq_iff_eq, iff_false]
    intro hEq
    rw [hEq] at hFilled
    exact absurd hFilled (by decide)
  · simp [hEmpty]
  · simp [hEmpty]

namespace WellFormed

theorem pos (h : WellFormed bp t) : 0 < t.numBuckets := by
  obtain ⟨k, _, hSize⟩ := h.size
  rw [hSize]
  exact Nat.two_pow_pos _

theorem mainBucket_lt (h : WellFormed bp t) (key : K) : mainBucket bp t key < t.numBuckets := by
  obtain ⟨k, _, hSize⟩ := h.size
  rw [mainBucket, and_mask hSize]
  exact Nat.mod_lt _ h.pos

theorem probe_lt (h : WellFormed bp t) (key : K) (round : Nat) :
    t.probe (mainBucket bp t key) round < t.numBuckets := by
  obtain ⟨k, _, hSize⟩ := h.size
  exact walk_lt hSize (h.mainBucket_lt key) 0 round

/-- Lanes beyond the buckets hold the sentinel. -/
theorem lane_cases (h : WellFormed bp t) {key : K} {round : Nat}
    (hb : InGroup (t.probe (mainBucket bp t key) round) b) :
    Within t.numBuckets (mainBucket bp t key) round b ∨ t.states b = sentinel := by
  rcases Nat.lt_or_ge b t.numBuckets with hIn | hOut
  · exact Or.inl ⟨hb, hIn⟩
  · have hStart := h.probe_lt key round
    exact Or.inr (h.outside b hOut (hb.2.trans (Nat.add_lt_add_right hStart _)))

/-- A key is found in the buckets that hold an equal key. -/
theorem hits_iff (h : WellFormed bp t) (hb : b < t.numBuckets) {key : K} :
    hits bp t key b = true ↔ ∃ e, slots t b = .live e ∧ bp.cmprKeys e.1 key = true := by
  have hKey := keyH2_bounds bp key
  rw [hits, Bool.and_eq_true, beq_iff_eq]
  constructor
  · rintro ⟨hState, hEq⟩
    refine ⟨t.pairs b, slots_eq_live_iff.mpr ⟨?_, rfl⟩, hEq⟩
    rw [Table.isFilled, decide_eq_true_eq, hState]
    exact hKey.1
  · rintro ⟨e, hLive, hEq⟩
    obtain ⟨hFilled, rfl⟩ := slots_eq_live_iff.mp hLive
    refine ⟨?_, hEq⟩
    rw [Table.isFilled, decide_eq_true_eq] at hFilled
    rcases h.states b hb with hState | hState | hState
    · rw [hState] at hFilled
      exact absurd hFilled (by decide)
    · rw [hState] at hFilled
      exact absurd hFilled (by decide)
    · rw [hState, keyH2_congr hEq]

/-- A bucket without an entry that is not empty has been erased. -/
theorem isDelete_iff (h : WellFormed bp t) (hb : b < t.numBuckets) :
    t.isDelete b = true ↔ slots t b = .deleted := by
  have hNot : t.isDelete b = true → t.isFilled b = false ∧ t.isEmpty b = false := by
    intro hDelete
    rw [Table.isDelete, beq_iff_eq] at hDelete
    rw [Table.isFilled, Table.isEmpty, hDelete]
    exact ⟨rfl, rfl⟩
  unfold slots
  split_ifs with hFilled hEmpty
  · refine iff_of_false (fun hDelete => ?_) (by simp)
    rw [(hNot hDelete).1] at hFilled
    cases hFilled
  · refine iff_of_false (fun hDelete => ?_) (by simp)
    rw [(hNot hDelete).2] at hEmpty
    cases hEmpty
  · refine iff_of_true ?_ rfl
    rw [Table.isDelete, beq_iff_eq]
    rcases h.states b hb with hState | hState | hState
    · rw [Table.isEmpty, hState] at hEmpty
      exact absurd rfl hEmpty
    · exact hState
    · rw [Table.isFilled, hState, decide_eq_true_eq] at hFilled
      exact absurd (keyH2_bounds bp _).1 hFilled

/-- Whether a round of the probe for a key meets a lane of this kind. -/
theorem lane_isSome_iff (h : WellFormed bp t) {mask : Nat → Bool} {key : K} {round : Nat}
    (hSentinel : ∀ b, t.states b = sentinel → mask b = false) :
    (firstLane mask (t.probe (mainBucket bp t key) round)).isSome = true ↔
      ∃ b, Within t.numBuckets (mainBucket bp t key) round b ∧ mask b = true := by
  rw [firstLane_isSome]
  constructor
  · rintro ⟨b, hIn, hMask⟩
    rcases h.lane_cases hIn with hWithin | hState
    · exact ⟨b, hWithin, hMask⟩
    · rw [hSentinel b hState] at hMask
      cases hMask
  · rintro ⟨b, hWithin, hMask⟩
    exact ⟨b, hWithin.1, hMask⟩

theorem lane_within (h : WellFormed bp t) {mask : Nat → Bool} {key : K} {round : Nat}
    (hSentinel : ∀ b, t.states b = sentinel → mask b = false)
    (hLane : firstLane mask (t.probe (mainBucket bp t key) round) = some b) :
    Within t.numBuckets (mainBucket bp t key) round b ∧ mask b = true := by
  obtain ⟨hIn, hMask⟩ := firstLane_eq_some hLane
  rcases h.lane_cases hIn with hWithin | hState
  · exact ⟨hWithin, hMask⟩
  · rw [hSentinel b hState] at hMask
    cases hMask

end WellFormed

theorem hits_sentinel (bp : Blueprint K V) (t : Table K V) (key : K) (b : Nat)
    (h : t.states b = sentinel) : hits bp t key b = false := by
  have hKey := keyH2_bounds bp key
  rw [hits, h, Bool.and_eq_false_iff, beq_eq_false_iff_ne]
  exact Or.inl (by omega)

theorem isEmpty_sentinel (t : Table K V) (b : Nat) (h : t.states b = sentinel) :
    t.isEmpty b = false := by
  rw [Table.isEmpty, h]
  rfl

theorem isDelete_sentinel (t : Table K V) (b : Nat) (h : t.states b = sentinel) :
    t.isDelete b = false := by
  rw [Table.isDelete, h]
  rfl

theorem emptyDelete_sentinel (t : Table K V) (b : Nat) (h : t.states b = sentinel) :
    t.emptyDelete b = false := by
  rw [Table.emptyDelete, h]
  rfl

end Slots

section Find

variable {bp : Blueprint K V} {t : Table K V}

/-- The rounds of a probe for a key. -/
abbrev KeyWithin (bp : Blueprint K V) (t : Table K V) (key : K) : Nat → Nat → Prop :=
  Within t.numBuckets (mainBucket bp t key)

/-- The length that is kept for the probe of a key. -/
abbrev keyOffset (bp : Blueprint K V) (t : Table K V) (key : K) : Nat :=
  t.getOffset (mainBucket bp t key)

/-- A bucket that the search for a key accepts. -/
def HoldsKey (bp : Blueprint K V) (t : Table K V) (b : Nat) (key : K) : Prop :=
  ∃ e, slots t b = .live e ∧ bp.cmprKeys e.1 key = true

/-- A round that meets no such lane reads no bucket with the key. -/
theorem WellFormed.not_holdsKey (h : WellFormed bp t) {key : K} {round b : Nat}
    (hMiss : (firstLane (hits bp t key) (t.probe (mainBucket bp t key) round)).isSome = false)
    (hb : KeyWithin bp t key round b) : ¬ HoldsKey bp t b key := by
  intro hHolds
  have hSome := (h.lane_isSome_iff (hits_sentinel bp t key)).mpr
    ⟨b, hb, (h.hits_iff hb.2).mpr hHolds⟩
  rw [hMiss] at hSome
  cases hSome

/-- The search for a key ends, at a bucket with the key that one of the rounds
up to the length reads, or else where no near bucket has the key. -/
theorem find_returns (h : WellFormed bp t) (key : K) :
    ∃ found, ReturnsTo (fun fuel => findFilledBucket bp fuel t key) found ∧
      ((∃ round ≤ keyOffset bp t key, KeyWithin bp t key round found ∧ HoldsKey bp t found key) ∨
        (found = t.numBuckets ∧
          ∀ p, Near (KeyWithin bp t key) (slots t) (keyOffset bp t key) p →
            ¬ HoldsKey bp t p key)) := by
  obtain ⟨⟨round, u⟩, hSearch⟩ := search_returns (findStops bp t key) id
    ⟨keyOffset bp t key, by simp [findStops, keyOffset]⟩ (fun _ acc => acc) ()
  obtain ⟨fuel, hFuel⟩ := hSearch.exists_fuel
  obtain ⟨_, hBefore, hStop, _⟩ := search_eq_some hFuel
  simp only [id, findStops, Bool.or_eq_false_iff, decide_eq_false_iff_not] at hBefore
  simp only [id, findStops, Bool.or_eq_true, Bool.and_eq_true, beq_iff_eq, decide_eq_true_eq]
    at hStop
  refine ⟨(firstLane (hits bp t key) (t.probe (mainBucket bp t key) round)).getD t.numBuckets,
    hSearch.map _, ?_⟩
  cases hHit : firstLane (hits bp t key) (t.probe (mainBucket bp t key) round) with
  | some b =>
      obtain ⟨hWithin, hMask⟩ := h.lane_within (hits_sentinel bp t key) hHit
      refine Or.inl ⟨round, ?_, hWithin, (h.hits_iff hWithin.2).mp hMask⟩
      by_contra hBeyond
      rw [keyOffset] at hBeyond
      exact (hBefore (round - 1) (by omega)).2 (by omega)
  | none =>
      refine Or.inr ⟨rfl, ?_⟩
      rintro p ⟨d, hd, hWithin, hFull⟩ hHolds
      have hNot (j : Nat) (hj : j ≤ round) : j ≠ d := by
        rintro rfl
        rcases Nat.lt_or_eq_of_le hj with hLt | rfl
        · exact h.not_holdsKey (hBefore j hLt).1.1 hWithin hHolds
        · exact h.not_holdsKey (by rw [hHit]; rfl) hWithin hHolds
      rcases hStop with (hSome | ⟨rfl, hEmpty⟩) | hEnd
      · rw [hHit] at hSome
        cases hSome
      · obtain ⟨q, hq, hMask⟩ := (h.lane_isSome_iff (isEmpty_sentinel t)).mp hEmpty
        have hFirst := hNot 0 (Nat.le_refl 0)
        exact hFull 0 (by omega) q hq (isEmpty_iff.mp hMask)
      · rw [keyOffset] at hd
        exact hNot d (by omega) rfl

end Find

end HashBench.Emilib2O
