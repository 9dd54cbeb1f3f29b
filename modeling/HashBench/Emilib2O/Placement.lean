import HashBench.Emilib2O.Lookup

/-! Where a key is placed: at the first empty bucket of its probe, at an erased
one before that, or beyond the length of the probe at the first bucket without
an entry. -/
namespace HashBench.Emilib2O

open Search OpenAddressing

variable {K V : Type} {bp : Blueprint K V} {t : Table K V} {key : K}

/-- A bucket without an entry, read in round `d`, and no empty bucket in the
rounds before. -/
structure Opens (bp : Blueprint K V) (t : Table K V) (key : K) (b d : Nat) : Prop where
  within : KeyWithin bp t key d b
  free : (slots t b).isLive = false
  before : ∀ j < d, ∀ q, KeyWithin bp t key j q → slots t q ≠ .empty

/-- All buckets that the first `d` rounds read have entries. -/
def Taken (bp : Blueprint K V) (t : Table K V) (key : K) (d : Nat) : Prop :=
  ∀ j < d, ∀ q, KeyWithin bp t key j q → (slots t q).isLive = true

/-- The length of a probe raised to a round. -/
def recorded (bp : Blueprint K V) (t : Table K V) (key : K) (d : Nat) : Table K V :=
  if keyOffset bp t key < d then t.setOffset (mainBucket bp t key) d else t

/-- A bucket that may be chosen for a key. Only a round up to the length may be
chosen while an earlier one reads a bucket without an entry. -/
def Chosen (bp : Blueprint K V) (t : Table K V) (key : K) (b d : Nat) : Prop :=
  Opens bp t key b d ∧ (d ≤ keyOffset bp t key ∨ Taken bp t key d)

theorem recorded_of_le {d : Nat} (h : d ≤ keyOffset bp t key) : recorded bp t key d = t :=
  if_neg (Nat.not_lt.mpr h)

section EmptySlot

/-- Below the load factor the probe of a key comes back to a bucket without an
entry. -/
theorem WellFormed.exists_free_round (h : WellFormed bp t)
    (hRoom : 8 * t.numFilled < 7 * t.numBuckets) (key : K) {r : Nat} (hr : 7 ≤ r) :
    ∃ i < t.numBuckets, ∃ b, KeyWithin bp t key (r + i) b ∧ (slots t b).isLive = false := by
  obtain ⟨k, _, hSize⟩ := h.size
  have hSixteen : 2 ^ 4 ≤ t.numBuckets := by
    rw [hSize]
    exact Nat.pow_le_pow_right Nat.two_pos (Nat.le_add_left ..)
  obtain ⟨p, hPos, hp, hFree⟩ := exists_free
    (show (contents (slots t) t.numBuckets).card + 1 < t.numBuckets by rw [h.count]; omega)
  obtain ⟨i, hi, hIn⟩ := exists_round hSize (h.mainBucket_lt key) hr hPos hp
  exact ⟨i, hi, p, ⟨hIn, hp⟩, hFree⟩

/-- Below the load factor the loop for a bucket without an entry ends. Begun
where all buckets before have entries, it ends at a bucket that may be chosen. -/
theorem findEmptySlot_returns (h : WellFormed bp t) (hRoom : 8 * t.numFilled < 7 * t.numBuckets)
    (key : K) (offset : Nat) :
    ∃ b d, ReturnsTo (fun fuel => findEmptySlot fuel t (mainBucket bp t key)
        (t.probe (mainBucket bp t key) offset) offset) (b, recorded bp t key d) ∧
      (Taken bp t key offset → Chosen bp t key b d) := by
  let groups := walk t.numBuckets (t.probe (mainBucket bp t key) offset) offset
  have hGroups (i : Nat) : groups i = t.probe (mainBucket bp t key) (offset + i) :=
    walk_add offset i
  have hLane (i : Nat) : (firstLane t.emptyDelete (groups i)).isSome = true ↔
      ∃ b, KeyWithin bp t key (offset + i) b ∧ (slots t b).isLive = false := by
    rw [hGroups, h.lane_isSome_iff (emptyDelete_sentinel t)]
    simp only [emptyDelete_eq, Bool.not_eq_true']
  obtain ⟨r, _, p, hIn, hFree⟩ := h.exists_free_round hRoom key (Nat.le_add_left 7 offset)
  rw [Nat.add_assoc] at hIn
  obtain ⟨⟨i, u⟩, hSearch⟩ := search_returns
    (fun bucket => (firstLane t.emptyDelete bucket).isSome) groups
    ⟨7 + r, (hLane _).mpr ⟨p, hIn, hFree⟩⟩ (fun _ acc => acc) ()
  obtain ⟨fuel, hFuel⟩ := hSearch.exists_fuel
  obtain ⟨_, hBefore, hStop, _⟩ := search_eq_some hFuel
  obtain ⟨b, hb⟩ := Option.isSome_iff_exists.mp hStop
  obtain ⟨hWithin, hMask⟩ := h.lane_within (emptyDelete_sentinel t) (hGroups i ▸ hb)
  rw [emptyDelete_eq, Bool.not_eq_true'] at hMask
  refine ⟨b, offset + i, ?_, fun hTaken => ?_⟩
  · have hResult := hSearch.map fun found : Nat × Unit =>
      ((firstLane t.emptyDelete (groups found.1)).getD 0, recorded bp t key (offset + found.1))
    rw [hb] at hResult
    exact hResult
  · have hAll : Taken bp t key (offset + i) := by
      intro j hj q hq
      rcases Nat.lt_or_ge j offset with hOld | hNew
      · exact hTaken j hOld q hq
      · by_contra hNot
        have hSome := (hLane (j - offset)).mpr
          ⟨q, by rwa [Nat.add_sub_cancel' hNew], Bool.eq_false_iff.mpr hNot⟩
        rw [hBefore (j - offset) (by omega)] at hSome
        cases hSome
    refine ⟨⟨hWithin, hMask, fun j hj q hq hEmpty => ?_⟩, Or.inr hAll⟩
    have hLive := hAll j hj q hq
    rw [hEmpty] at hLive
    cases hLive

end EmptySlot

section Allocate

/-- The hole is the first erased bucket of the first round that has one. -/
theorem trail_noteHole (t : Table K V) (main r : Nat) :
    (∀ hole, trail (noteHole t main) id r none = some hole →
      ∃ i < r, firstLane t.isDelete (t.probe main i) = some hole) ∧
    (trail (noteHole t main) id r none = none →
      ∀ i < r, firstLane t.isDelete (t.probe main i) = none) := by
  induction r with
  | zero =>
      refine ⟨fun hole h => ?_, fun _ i hi => absurd hi (Nat.not_lt_zero i)⟩
      cases h
  | succ r ih =>
      rw [trail]
      cases hTrail : trail (noteHole t main) id r none with
      | some first =>
          refine ⟨fun hole h => ?_, fun h => by cases h⟩
          obtain ⟨i, hi, hLane⟩ := ih.1 first hTrail
          exact ⟨i, Nat.lt_succ_of_lt hi, hLane.trans h⟩
      | none =>
          refine ⟨fun hole h => ⟨r, r.lt_succ_self, h⟩, fun h i hi => ?_⟩
          rcases Nat.lt_succ_iff_lt_or_eq.mp hi with hLt | rfl
          · exact ih.2 hTrail i hLt
          · exact h

theorem WellFormed.not_empty (h : WellFormed bp t) {round b : Nat}
    (hMiss : (firstLane t.isEmpty (t.probe (mainBucket bp t key) round)).isSome = false)
    (hb : KeyWithin bp t key round b) : slots t b ≠ .empty := by
  intro hEmpty
  have hSome := (h.lane_isSome_iff (isEmpty_sentinel t)).mpr ⟨b, hb, isEmpty_iff.mpr hEmpty⟩
  rw [hMiss] at hSome
  cases hSome

/-- An erased bucket is chosen before the probe ends. -/
theorem WellFormed.chosen_hole (h : WellFormed bp t) {i r hole : Nat}
    (hLane : firstLane t.isDelete (t.probe (mainBucket bp t key) i) = some hole) (hi : i ≤ r)
    (hr : r ≤ keyOffset bp t key) (hFull : ∀ j < r, ∀ q, KeyWithin bp t key j q →
      slots t q ≠ .empty) : Chosen bp t key hole i := by
  obtain ⟨hWithin, hMask⟩ := h.lane_within (isDelete_sentinel t) hLane
  have hDeleted := (h.isDelete_iff hWithin.2).mp hMask
  refine ⟨⟨hWithin, by rw [hDeleted]; rfl, fun j hj => hFull j (hj.trans_le hi)⟩, ?_⟩
  exact Or.inl (hi.trans hr)

/-- Rounds without an empty or an erased bucket. -/
theorem WellFormed.taken (h : WellFormed bp t) {r : Nat}
    (hFull : ∀ j < r, ∀ q, KeyWithin bp t key j q → slots t q ≠ .empty)
    (hNone : ∀ j < r, firstLane t.isDelete (t.probe (mainBucket bp t key) j) = none) :
    Taken bp t key r := by
  intro j hj q hq
  cases hSlot : slots t q with
  | live e => rfl
  | empty => exact absurd hSlot (hFull j hj q hq)
  | deleted =>
      have hMask := firstLane_eq_none.mp (hNone j hj) q hq.1
      rw [(h.isDelete_iff hq.2).mpr hSlot] at hMask
      cases hMask

/-- The loop for a key stops in round `r`, with the hole that it noted before. -/
structure Scanned (bp : Blueprint K V) (t : Table K V) (key : K) (r : Nat) (hole : Option Nat) :
    Prop where
  le : r ≤ keyOffset bp t key
  missed : ∀ j < r, (firstLane (hits bp t key) (t.probe (mainBucket bp t key) j)).isSome = false
  full : ∀ j < r, ∀ q, KeyWithin bp t key j q → slots t q ≠ .empty
  stops : ((firstLane (hits bp t key) (t.probe (mainBucket bp t key) r)).isSome = true ∨
    (firstLane t.isEmpty (t.probe (mainBucket bp t key) r)).isSome = true) ∨
      keyOffset bp t key < r + 1
  noted : hole = trail (noteHole t (mainBucket bp t key)) id r none

theorem scan_returns (h : WellFormed bp t) (key : K) : ∃ r hole,
    ReturnsTo (fun fuel => search (allocateStops bp t key) (noteHole t (mainBucket bp t key)) id
      fuel 0 none) (r, hole) ∧ Scanned bp t key r hole := by
  obtain ⟨⟨r, hole⟩, hSearch⟩ := search_returns (allocateStops bp t key) id
    ⟨keyOffset bp t key, by simp [allocateStops, keyOffset]⟩
    (noteHole t (mainBucket bp t key)) none
  obtain ⟨fuel, hFuel⟩ := hSearch.exists_fuel
  obtain ⟨_, hBefore, hStop, hHole⟩ := search_eq_some hFuel
  simp only [id, allocateStops, Bool.or_eq_false_iff, decide_eq_false_iff_not] at hBefore
  simp only [id, allocateStops, Bool.or_eq_true, decide_eq_true_eq] at hStop
  refine ⟨r, hole, hSearch, ?_, fun j hj => (hBefore j hj).1.1, fun j hj q hq =>
    h.not_empty (hBefore j hj).1.2 hq, hStop, hHole⟩
  by_contra hBeyond
  rw [keyOffset] at hBeyond
  exact (hBefore (r - 1) (by omega)).2 (by omega)

namespace Scanned

variable {r : Nat} {hole : Option Nat}

/-- Where the last round misses the key too, no near bucket has it. -/
theorem absent (hScan : Scanned bp t key r hole) (h : WellFormed bp t)
    (hMiss : firstLane (hits bp t key) (t.probe (mainBucket bp t key) r) = none) {p : Nat}
    (hNear : Near (KeyWithin bp t key) (slots t) (keyOffset bp t key) p) :
    ¬ HoldsKey bp t p key := by
  obtain ⟨d, hd, hWithin, hBefore⟩ := hNear
  rcases Nat.lt_trichotomy d r with hLt | rfl | hGt
  · exact h.not_holdsKey (hScan.missed d hLt) hWithin
  · exact h.not_holdsKey (by rw [hMiss]; rfl) hWithin
  · rcases hScan.stops with (hSome | hEmpty) | hEnd
    · rw [hMiss] at hSome
      cases hSome
    · obtain ⟨q, hq, hMask⟩ := (h.lane_isSome_iff (isEmpty_sentinel t)).mp hEmpty
      exact absurd (isEmpty_iff.mp hMask) (hBefore r hGt q hq)
    · omega

/-- A hole that was noted is chosen. -/
theorem chosen_noted {b : Nat} (hScan : Scanned bp t key r (some b)) (h : WellFormed bp t) :
    ∃ d ≤ keyOffset bp t key, Chosen bp t key b d := by
  obtain ⟨i, hi, hLane⟩ := (trail_noteHole t (mainBucket bp t key) r).1 b hScan.noted.symm
  exact ⟨i, hi.le.trans hScan.le, h.chosen_hole hLane hi.le hScan.le hScan.full⟩

/-- The first empty bucket is chosen where no hole was noted. -/
theorem chosen_empty {b : Nat} (hScan : Scanned bp t key r hole) (h : WellFormed bp t)
    (hEmpty : firstLane t.isEmpty (t.probe (mainBucket bp t key) r) = some b) :
    Chosen bp t key b r := by
  obtain ⟨hWithin, hMask⟩ := h.lane_within (isEmpty_sentinel t) hEmpty
  refine ⟨⟨hWithin, ?_, hScan.full⟩, Or.inl hScan.le⟩
  rw [isEmpty_iff.mp hMask]
  rfl

/-- The rounds up to the last one, where that has no empty bucket either. -/
theorem full_succ (hScan : Scanned bp t key r hole) (h : WellFormed bp t)
    (hNone : firstLane t.isEmpty (t.probe (mainBucket bp t key) r) = none) :
    ∀ j < r + 1, ∀ q, KeyWithin bp t key j q → slots t q ≠ .empty := by
  intro j hj q hq
  rcases Nat.lt_succ_iff_lt_or_eq.mp hj with hLt | rfl
  · exact hScan.full j hLt q hq
  · exact h.not_empty (by rw [hNone]; rfl) hq

/-- The loop that missed the key goes on to a bucket chosen for it. -/
theorem allocate_chosen (hScan : Scanned bp t key r hole) (h : WellFormed bp t)
    (hRoom : 8 * t.numFilled < 7 * t.numBuckets)
    (hSearch : ReturnsTo (fun fuel => search (allocateStops bp t key)
      (noteHole t (mainBucket bp t key)) id fuel 0 none) (r, hole))
    (hMiss : firstLane (hits bp t key) (t.probe (mainBucket bp t key) r) = none) :
    ∃ b d, ReturnsTo (fun fuel => allocate bp fuel t key)
        (b, true, (recorded bp t key d).setStates b (keyH2 bp key)) ∧ Chosen bp t key b d := by
  cases hEmpty : firstLane t.isEmpty (t.probe (mainBucket bp t key) r) with
  | some e =>
      cases hole with
      | some b =>
          obtain ⟨d, hd, hChosen⟩ := hScan.chosen_noted h
          refine ⟨b, d, hSearch.bind ?_, hChosen⟩
          simp only [hMiss, hEmpty, recorded_of_le hd]
          exact ReturnsTo.pure _
      | none =>
          refine ⟨e, r, hSearch.bind ?_, hScan.chosen_empty h hEmpty⟩
          simp only [hMiss, hEmpty, recorded_of_le hScan.le]
          exact ReturnsTo.pure _
  | none =>
      have hFull := hScan.full_succ h hEmpty
      obtain ⟨hLast, hLastNone⟩ := trail_noteHole t (mainBucket bp t key) (r + 1)
      rw [trail, ← hScan.noted] at hLast hLastNone
      cases hNow : noteHole t (mainBucket bp t key) r hole with
      | some b =>
          obtain ⟨i, hi, hLane⟩ := hLast b hNow
          have hi := Nat.le_of_lt_succ hi
          refine ⟨b, i, hSearch.bind ?_, h.chosen_hole hLane hi hScan.le hScan.full⟩
          simp only [hMiss, hEmpty, hNow, recorded_of_le (hi.trans hScan.le)]
          exact ReturnsTo.pure _
      | none =>
          obtain ⟨b, d, hSlot, hChosen⟩ := findEmptySlot_returns h hRoom key (r + 1)
          refine ⟨b, d, hSearch.bind ?_, hChosen (h.taken hFull (hLastNone hNow))⟩
          simp only [hMiss, hEmpty, hNow]
          exact hSlot.map _

end Scanned

/-- The loop for a key ends, at a bucket with the key or at one chosen for it,
and then no near bucket has the key. -/
theorem allocate_returns (h : WellFormed bp t) (hRoom : 8 * t.numFilled < 7 * t.numBuckets)
    (key : K) :
    (∃ b, ReturnsTo (fun fuel => allocate bp fuel t key) (b, false, t) ∧ b < t.numBuckets ∧
      HoldsKey bp t b key) ∨
    (∃ b d, ReturnsTo (fun fuel => allocate bp fuel t key)
        (b, true, (recorded bp t key d).setStates b (keyH2 bp key)) ∧ Chosen bp t key b d ∧
      ∀ p, Near (KeyWithin bp t key) (slots t) (keyOffset bp t key) p → ¬ HoldsKey bp t p key) := by
  obtain ⟨r, hole, hSearch, hScan⟩ := scan_returns h key
  cases hHit : firstLane (hits bp t key) (t.probe (mainBucket bp t key) r) with
  | some b =>
      obtain ⟨hWithin, hMask⟩ := h.lane_within (hits_sentinel bp t key) hHit
      refine Or.inl ⟨b, hSearch.bind ?_, hWithin.2, (h.hits_iff hWithin.2).mp hMask⟩
      simp only [hHit]
      exact ReturnsTo.pure _
  | none =>
      obtain ⟨b, d, hRun, hChosen⟩ := hScan.allocate_chosen h hRoom hSearch hHit
      exact Or.inr ⟨b, d, hRun, hChosen, fun p hNear => hScan.absent h hHit hNear⟩

end Allocate

end HashBench.Emilib2O
