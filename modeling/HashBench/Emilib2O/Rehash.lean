import HashBench.Emilib2O.Storing
import HashBench.Library.Counted

/-! Growing a table. The pairs of the old buckets are placed, from the last
bucket down, in a table of twice the size. -/
namespace HashBench.Emilib2O

open Search OpenAddressing

variable {K V : Type} {bp : Blueprint K V} {memory : Nat → K × V}

section NewTable

variable {n : Nat}

theorem slots_newTable (memory : Nat → K × V) {p : Nat} (hp : p < n) :
    slots (newTable memory n) p = .empty := by
  rw [← isEmpty_iff, Table.isEmpty, beq_iff_eq]
  exact if_pos hp

theorem contents_newTable (memory : Nat → K × V) (n : Nat) :
    contents (slots (newTable memory n)) (newTable memory n).numBuckets = 0 :=
  total_eq_zero _ fun p hp => by rw [slots_newTable (n := n) memory hp]; rfl

theorem newTable_wellFormed (bp : Blueprint K V) (memory : Nat → K × V)
    (hSize : ∃ k ≤ 26, n = 2 ^ (k + 4)) : WellFormed bp (newTable memory n) where
  size := hSize
  outside _ hp _ := if_neg (Nat.not_lt.mpr hp)
  states _ hp := Or.inl (if_pos hp)
  values e he := by
    rw [contents_newTable] at he
    exact absurd he (Multiset.notMem_zero e)
  count := by
    rw [contents_newTable]
    rfl
  load := Nat.zero_le _
  byte _ := Nat.two_pow_pos 8

theorem newTable_kept (bp : Blueprint K V) (memory : Nat → K × V) (n : Nat) :
    Kept bp (newTable memory n) where
  tracked := Tracked.of_empty fun _ hp => slots_newTable memory hp
  nodup := by
    rw [contents_newTable]
    exact Multiset.nodup_zero

end NewTable

section Move

/-- The pairs of the old buckets that are still to be moved. -/
def pending (old : Table K V) (srcs : List Nat) : Multiset (K × V) :=
  ((srcs.filter old.isFilled).map old.pairs : List (K × V))

/-- No pair of these old buckets meets a table in which none of the first 256
rounds reads a bucket without an entry. -/
def MovesFit (bp : Blueprint K V) (old : Table K V) : List Nat → Table K V → Prop
  | [], _ => True
  | src :: rest, t =>
      (t.numFilled < old.numFilled → old.isFilled src = true → Reaches bp t (old.pairs src).1) ∧
        ∀ t', ReturnsTo (fun fuel => moveBucket bp fuel old t src) t' → MovesFit bp old rest t'

variable {old t : Table K V} {src : Nat} {rest srcs : List Nat}

theorem pending_srcBuckets (old : Table K V) :
    pending old (srcBuckets old) = contents (slots old) old.numBuckets := by
  have hLive : (fun p => (slots old p).isLive) = old.isFilled := funext (slots_isLive old)
  have hList := Counted.coe_usedFrom old.pairs id (slots old) old.numBuckets fun p _ e hp =>
    (slots_eq_live_iff.mp hp).2
  rw [Multiset.map_id, hLive, Iteration.usedFrom, Nat.sub_zero, ← List.range_eq_range'] at hList
  rw [pending, srcBuckets, List.filter_reverse, List.map_reverse, Multiset.coe_reverse, hList]

theorem pending_cons (hFilled : old.isFilled src = true) :
    pending old (src :: rest) = old.pairs src ::ₘ pending old rest := by
  rw [pending, List.filter_cons_of_pos hFilled, List.map_cons]
  rfl

theorem pending_cons_free (hFree : old.isFilled src = false) :
    pending old (src :: rest) = pending old rest := by
  rw [pending, List.filter_cons_of_neg (by rw [hFree]; exact Bool.false_ne_true)]
  rfl

/-- The pairs to be moved and those of the new table make up those of the old. -/
def Splits (old t : Table K V) (srcs : List Nat) : Prop :=
  pending old srcs + contents (slots t) t.numBuckets = contents (slots old) old.numBuckets

/-- A pair is placed where its bucket is filled, and then the table is one with
fewer pairs than the old one. -/
theorem moveBucket_returns (hOld : WellFormed bp old) (h : WellFormed bp t)
    (hSize : t.numBuckets = 2 * old.numBuckets) (hSplits : Splits old t (src :: rest))
    (hFilled : old.isFilled src = true) :
    ∃ b d, ReturnsTo (fun fuel => moveBucket bp fuel old t src) (placed bp t (old.pairs src) b d) ∧
      Chosen bp t (old.pairs src).1 b d ∧ t.numFilled < old.numFilled ∧
      WellFormed bp (placed bp t (old.pairs src) b d) ∧
      Splits old (placed bp t (old.pairs src) b d) rest := by
  have hCard := congrArg Multiset.card hSplits
  rw [pending_cons hFilled, Multiset.cons_add, Multiset.card_cons, Multiset.card_add, h.count,
    hOld.count] at hCard
  have hLess : t.numFilled < old.numFilled := by omega
  have hRoom : 8 * t.numFilled < 7 * t.numBuckets := by
    have hLoad := hOld.load
    omega
  obtain ⟨b, d, hSlot, hChosen⟩ := findEmptySlot_returns h hRoom (old.pairs src).1 0
  have hChosen := hChosen fun j hj => absurd hj (Nat.not_lt_zero j)
  have hContents := contents_placed bp (old.pairs src) d
    hChosen.1.within.2 hChosen.1.free
  have hValue : (old.pairs src).2 = bp.valueType := by
    refine hOld.values _ ?_
    rw [← hSplits, pending_cons hFilled, Multiset.cons_add]
    exact Multiset.mem_cons_self ..
  refine ⟨b, d, ?_, hChosen, hLess, h.placed hRoom hChosen hValue, ?_⟩
  · unfold moveBucket
    simp only [if_pos (And.intro hLess hFilled)]
    exact hSlot.map fun found : Nat × Table K V =>
      (found.2.setStates found.1 (keyH2 bp (old.pairs src).1)).construct found.1 (old.pairs src)
  · rw [Splits, hContents, ← hSplits, pending_cons hFilled, Multiset.cons_add, Multiset.add_cons]

/-- The loop over old buckets ends with all pairs moved. None is lost if they
fit, and otherwise one is. -/
theorem moveAll_returns (hOld : WellFormed bp old) (h : WellFormed bp t)
    (hSize : t.numBuckets = 2 * old.numBuckets) (hSplits : Splits old t srcs) :
    ∃ t', ReturnsTo (fun fuel => srcs.foldlM (moveBucket bp fuel old) t) t' ∧
      WellFormed bp t' ∧ t'.numBuckets = 2 * old.numBuckets ∧
      contents (slots t') t'.numBuckets = contents (slots old) old.numBuckets ∧
      (Kept bp old → Kept bp t → MovesFit bp old srcs t → Kept bp t') ∧
      (Lost bp t ∨ ¬ MovesFit bp old srcs t → Lost bp t') := by
  induction srcs generalizing t with
  | nil =>
      refine ⟨t, ReturnsTo.pure t, h, hSize, ?_, fun _ hKept _ => hKept, fun hLost => ?_⟩
      · rw [← hSplits, pending]
        exact (zero_add _).symm
      · exact hLost.elim id fun hNot => absurd trivial hNot
  | cons src rest ih =>
      simp only [List.foldlM_cons]
      cases hFilled : old.isFilled src with
      | false =>
          have hSame (fuel : Nat) : moveBucket bp fuel old t src = some t :=
            if_neg fun hBoth => by rw [hFilled] at hBoth; cases hBoth.2
          have hStep : ReturnsTo (fun fuel => moveBucket bp fuel old t src) t := by
            simp only [hSame]
            exact ReturnsTo.pure t
          have hFits : MovesFit bp old (src :: rest) t ↔ MovesFit bp old rest t := by
            refine ⟨fun hFit => hFit.2 t hStep, fun hFit => ⟨fun _ hTrue => ?_, fun t' hStep' => ?_⟩⟩
            · rw [hFilled] at hTrue
              cases hTrue
            · rwa [← hStep.unique hStep']
          rw [Splits, pending_cons_free hFilled] at hSplits
          obtain ⟨t', hRun, hRest⟩ := ih h hSize hSplits
          rw [hFits]
          exact ⟨t', hStep.bind hRun, hRest⟩
      | true =>
          obtain ⟨b, d, hStep, hChosen, hLess, hNext, hSplits'⟩ :=
            moveBucket_returns hOld h hSize hSplits hFilled
          obtain ⟨t', hRun, hWell, hSize', hContents, hKeep, hLose⟩ := ih hNext
            ((placed_numBuckets ..).trans hSize) hSplits'
          refine ⟨t', hStep.bind hRun, hWell, hSize', hContents, fun hKeptOld hKept hFit => ?_,
            fun hBad => hLose ?_⟩
          · have hNodup := hKeptOld.nodup
            rw [← hSplits, pending_cons hFilled, Multiset.cons_add, Multiset.map_cons,
              Multiset.nodup_cons, Multiset.map_add] at hNodup
            have hNew : bp.cls (old.pairs src).1 ∉
                (contents (slots t) t.numBuckets).map fun e => bp.cls e.1 := fun hMem =>
              hNodup.1 (Multiset.mem_add.mpr (Or.inr hMem))
            have hReach := (hChosen.lt_iff h).mpr (hFit.1 hLess hFilled)
            exact hKeep hKeptOld (hKept.placed hChosen hReach hNew) (hFit.2 _ hStep)
          · rcases hBad with hLost | hNot
            · exact Or.inl (hLost.placed hChosen.1.free)
            · by_cases hReach : Reaches bp t (old.pairs src).1
              · refine Or.inr fun hFit => hNot ⟨fun _ _ => hReach, fun t' hStep' => ?_⟩
                rwa [← hStep.unique hStep']
              · exact Or.inl (lost_placed hChosen hReach)

end Move

section Reserve

/-- The number of buckets is doubled up to the first power of two that is enough. -/
theorem doubleBuckets_returns {required m j : Nat} (hm : m < 32) (hEnough : required ≤ 2 ^ m)
    (hLess : ∀ i < m, 2 ^ i < required) (hj : j ≤ m) :
    ReturnsTo (fun fuel => doubleBuckets required fuel (2 ^ j)) (2 ^ m) := by
  induction hj using Nat.decreasingInduction with
  | self =>
      refine ReturnsTo.of_succ ?_
      simp only [doubleBuckets, if_neg (Nat.not_lt.mpr hEnough)]
      exact ReturnsTo.pure _
  | of_succ j hj ih =>
      have hBelow : 2 ^ (j + 1) < 2 ^ 32 := Nat.pow_lt_pow_right Nat.one_lt_two (by omega)
      refine ReturnsTo.of_succ ?_
      simp only [doubleBuckets, if_pos (hLess j hj), ← Nat.pow_succ, Nat.mod_eq_of_lt hBelow]
      exact ih

variable {t : Table K V}

/-- A table is full where it holds as many pairs as the load factor allows. -/
def Full (t : Table K V) : Prop := t.numBuckets ≤ t.numFilled * 8 / 7

/-- A rehash of a full table doubles its buckets. -/
theorem doubleBuckets_full (h : WellFormed bp t) (hFull : Full t) :
    ReturnsTo (fun fuel => doubleBuckets (t.numFilled * 8 / 7 + 2) fuel
      (if 2 ^ 16 < t.numFilled then 2 ^ 16 else simdBytes)) (2 * t.numBuckets) := by
  obtain ⟨k, hk, hSize⟩ := h.size
  have hLoad := h.load
  have hRequired : t.numFilled * 8 / 7 = t.numBuckets := by
    rw [Full] at hFull
    omega
  have hSixteen : 2 ^ 4 ≤ 2 ^ (k + 4) := Nat.pow_le_pow_right Nat.two_pos (Nat.le_add_left ..)
  have hEnough : 2 ^ (k + 4) + 2 ≤ 2 ^ (k + 5) := by
    rw [Nat.pow_succ 2 (k + 4)]
    omega
  have hLess (i : Nat) (hi : i < k + 5) : 2 ^ i < 2 ^ (k + 4) + 2 :=
    (Nat.pow_le_pow_right Nat.two_pos (Nat.le_of_lt_succ hi)).trans_lt (by omega)
  have hDouble : 2 * t.numBuckets = 2 ^ (k + 5) := by
    rw [hSize, Nat.pow_succ 2 (k + 4), Nat.mul_comm]
  rw [hRequired, hDouble, hSize]
  split
  · rename_i hMany
    refine doubleBuckets_returns (by omega) hEnough hLess ?_
    refine (Nat.pow_le_pow_iff_right Nat.one_lt_two).mp ?_
    rw [← hDouble]
    omega
  · exact doubleBuckets_returns (j := 4) (by omega) hEnough hLess (Nat.le_add_left 4 (k + 1))

/-- The pairs of a full table all meet room in the one of twice the size. -/
def GrowthFits (bp : Blueprint K V) (memory : Nat → K × V) (t : Table K V) : Prop :=
  Full t → MovesFit bp t (srcBuckets t) (newTable memory (2 * t.numBuckets))

/-- A table with the same pairs that has a bucket left. -/
structure Reserved (bp : Blueprint K V) (memory : Nat → K × V) (t u : Table K V) : Prop where
  wellFormed : WellFormed bp u
  room : 8 * u.numFilled < 7 * u.numBuckets
  same : contents (slots u) u.numBuckets = contents (slots t) t.numBuckets
  grown : u.numBuckets = t.numBuckets ∨ Full t ∧ u.numBuckets = 2 * t.numBuckets
  kept : Kept bp t → GrowthFits bp memory t → Kept bp u
  lost : ¬ GrowthFits bp memory t → Lost bp u

/-- A full table is replaced by one of twice the size. With the largest number
of buckets the new one exceeds its allocation. -/
theorem reserve_full (h : WellFormed bp t) (memory : Nat → K × V) (hFull : Full t) :
    (∃ u, ReturnsTo (fun fuel => (reserve bp memory fuel t t.numFilled).run) (.ok u) ∧
        t.numFilled < 7 * 2 ^ 27 ∧ Reserved bp memory t u) ∨
      ReturnsTo (fun fuel => (reserve bp memory fuel t t.numFilled).run) (.error .heapOverflow) ∧
        7 * 2 ^ 27 ≤ t.numFilled := by
  have hDouble := doubleBuckets_full h hFull
  have hReserve (fuel : Nat) : reserve bp memory fuel t t.numFilled =
      lift (doubleBuckets (t.numFilled * 8 / 7 + 2) fuel
        (if 2 ^ 16 < t.numFilled then 2 ^ 16 else simdBytes)) >>= fun numBuckets =>
          if exceedsAllocation numBuckets = true then throw .heapOverflow
          else lift ((srcBuckets t).foldlM (moveBucket bp fuel t) (newTable memory numBuckets)) := by
    have hNot : ¬ t.numFilled * 8 / 7 + 2 < t.numFilled := by omega
    rw [reserve, if_neg (Nat.not_lt.mpr hFull), rehash, if_neg hNot]
  obtain ⟨k, hk, hSize⟩ := h.size
  have hLoad := h.load
  have hPos := h.pos
  simp only [hReserve]
  rcases Nat.lt_or_eq_of_le hk with hk | rfl
  · have hBound : 2 ^ (k + 4) ≤ 2 ^ 29 := Nat.pow_le_pow_right Nat.two_pos (by omega)
    have hAllocated : exceedsAllocation (2 * t.numBuckets) = false := by
      rw [exceedsAllocation, decide_eq_false_iff_not, simdBytes, offsetStep,
        Nat.mod_eq_of_lt (by omega)]
      omega
    have hNew : WellFormed bp (newTable memory (2 * t.numBuckets)) := by
      refine newTable_wellFormed bp memory ⟨k + 1, by omega, ?_⟩
      rw [hSize, Nat.add_right_comm, Nat.pow_succ 2 (k + 4), Nat.mul_comm]
    have hSplits : Splits t (newTable memory (2 * t.numBuckets)) (srcBuckets t) := by
      rw [Splits, pending_srcBuckets, contents_newTable, add_zero]
    obtain ⟨u, hRun, hWell, hSize', hContents, hKeep, hLose⟩ :=
      moveAll_returns h hNew rfl hSplits
    have hCount : u.numFilled = t.numFilled := by rw [← hWell.count, hContents, h.count]
    refine Or.inl ⟨u, (lift_returns hDouble).andThen ?_, by omega, hWell, by omega, hContents,
      Or.inr ⟨hFull, hSize'⟩, fun hKept hFit => hKeep hKept (newTable_kept bp memory _) (hFit hFull),
      fun hNot => hLose (Or.inr fun hFit => hNot fun _ => hFit)⟩
    simp only [hAllocated, Bool.false_eq_true, if_false]
    exact lift_returns hRun
  · have hExceeds : exceedsAllocation (2 * t.numBuckets) = true := by
      rw [hSize]
      decide
    rw [Full] at hFull
    refine Or.inr ⟨(lift_returns hDouble).andThen ?_, by omega⟩
    simp only [hExceeds, if_true]
    exact ReturnsTo.pure _

/-- Room is made for another pair, unless the table has 7 * 2 ^ 27 pairs. -/
theorem reserve_returns (h : WellFormed bp t) (memory : Nat → K × V) :
    (∃ u, ReturnsTo (fun fuel => (reserve bp memory fuel t t.numFilled).run) (.ok u) ∧
        t.numFilled < 7 * 2 ^ 27 ∧ Reserved bp memory t u) ∨
      ReturnsTo (fun fuel => (reserve bp memory fuel t t.numFilled).run) (.error .heapOverflow) ∧
        7 * 2 ^ 27 ≤ t.numFilled := by
  by_cases hFull : Full t
  · exact reserve_full h memory hFull
  · have hKeep (fuel : Nat) : reserve bp memory fuel t t.numFilled = pure t :=
      if_pos (Nat.not_le.mp hFull)
    obtain ⟨k, hk, hSize⟩ := h.size
    have hBound : 2 ^ (k + 4) ≤ 2 ^ 30 := Nat.pow_le_pow_right Nat.two_pos (by omega)
    have hRoom : 8 * t.numFilled < 7 * t.numBuckets := by
      rw [Full] at hFull
      omega
    simp only [hKeep]
    exact Or.inl ⟨t, ReturnsTo.pure _, by omega, h, hRoom, rfl, Or.inl rfl,
      fun hKept _ => hKept, fun hNot => absurd (fun hFull' => absurd hFull' hFull) hNot⟩

end Reserve

end HashBench.Emilib2O
