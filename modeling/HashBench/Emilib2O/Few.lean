import HashBench.Emilib2O.Refinement

/-! Tables of up to 128 buckets. The first 256 rounds of a probe read all of
their buckets but the first, so that no key is lost under any hash function. -/
namespace HashBench.Emilib2O

open Search OpenAddressing

variable {K V : Type} {bp : Blueprint K V} {memory : Nat → K × V} {old t : Table K V}

/-- The size of a table whose probes fit into the rounds of a byte. -/
def Small (t : Table K V) : Prop := t.numBuckets ≤ 2 ^ 7

theorem WellFormed.reaches (h : WellFormed bp t) (hRoom : 8 * t.numFilled < 7 * t.numBuckets)
    (hSmall : Small t) (key : K) : Reaches bp t key := by
  obtain ⟨i, hi, b, hWithin, hFree⟩ := h.exists_free_round hRoom key (Nat.le_refl 7)
  rw [Small] at hSmall
  exact ⟨7 + i, by omega, b, hWithin, hFree⟩

/-- In a small table all pairs meet room. -/
theorem movesFit_of_small (hOld : WellFormed bp old) (h : WellFormed bp t)
    (hSize : t.numBuckets = 2 * old.numBuckets) (hSmall : Small t) {srcs : List Nat}
    (hSplits : Splits old t srcs) : MovesFit bp old srcs t := by
  induction srcs generalizing t with
  | nil => trivial
  | cons src rest ih =>
      refine ⟨fun hLess _ => h.reaches ?_ hSmall _, fun t' hStep => ?_⟩
      · have hLoad := hOld.load
        omega
      cases hFilled : old.isFilled src with
      | false =>
          have hSame (fuel : Nat) : moveBucket bp fuel old t src = some t :=
            if_neg fun hBoth => by rw [hFilled] at hBoth; cases hBoth.2
          simp only [hSame] at hStep
          obtain rfl := (ReturnsTo.pure t).unique hStep
          rw [Splits, pending_cons_free hFilled] at hSplits
          exact ih h hSize hSmall hSplits
      | true =>
          obtain ⟨b, d, hPlaced, _, _, hNext, hSplits'⟩ :=
            moveBucket_returns hOld h hSize hSplits hFilled
          obtain rfl := hPlaced.unique hStep
          refine ih hNext ((placed_numBuckets ..).trans hSize) ?_ hSplits'
          rwa [Small, placed_numBuckets]

/-- Below 112 pairs a small table grows no further than to a small one. -/
theorem growthFits_of_few (h : WellFormed bp t) (hFew : t.numFilled < 112) (memory : Nat → K × V) :
    GrowthFits bp memory t := by
  intro hFull
  obtain ⟨k, _, hSize⟩ := h.size
  rw [Full] at hFull
  have hLess : 2 ^ (k + 4) < 2 ^ 7 := by omega
  have hk := (Nat.pow_lt_pow_iff_right Nat.one_lt_two).mp hLess
  have hDouble : 2 * t.numBuckets = 2 ^ (k + 1 + 4) := by
    rw [hSize, Nat.add_right_comm, Nat.pow_succ 2 (k + 4), Nat.mul_comm]
  refine movesFit_of_small h (newTable_wellFormed bp memory ⟨k + 1, by omega, hDouble⟩) rfl ?_ ?_
  · change 2 * t.numBuckets ≤ 2 ^ 7
    rw [hDouble]
    exact Nat.pow_le_pow_right Nat.two_pos (by omega)
  · rw [Splits, pending_srcBuckets, contents_newTable, add_zero]

theorem Reserved.small {u : Table K V} (h : Reserved bp memory t u) (hWell : WellFormed bp t)
    (hFew : t.numFilled < 112) (hSmall : Small t) : Small u := by
  rcases h.grown with hSame | ⟨hFull, hSize⟩
  · rwa [Small, hSame]
  · obtain ⟨k, _, hPower⟩ := hWell.size
    rw [Full] at hFull
    have hLess : 2 ^ (k + 4) < 2 ^ 7 := by omega
    have hk := (Nat.pow_lt_pow_iff_right Nat.one_lt_two).mp hLess
    rw [Small, hSize, hPower, Nat.mul_comm, ← Nat.pow_succ]
    exact Nat.pow_le_pow_right Nat.two_pos (by omega)

/-- An insertion into a small table with few pairs fits, and leaves a small one. -/
theorem fits_of_few (h : WellFormed bp t) (hFew : t.numFilled < 112) (hSmall : Small t)
    (memory : Nat → K × V) (key : K) : Fits bp memory t key ∧
      ∀ t', ReturnsTo (fun fuel => (Shim.insert bp memory fuel t key).run) (.ok t') → Small t' := by
  rcases reserve_returns h memory with ⟨u, hReserve, hMany, hReserved⟩ | ⟨_, hMany⟩
  · have hu := hReserved.small h hFew hSmall
    refine ⟨⟨hMany, growthFits_of_few h hFew memory, fun _ u' hReserve' => ?_⟩, fun t' hRun => ?_⟩
    · obtain rfl := Except.ok.inj (hReserve.unique hReserve')
      exact hReserved.wellFormed.reaches hReserved.room hu key
    · rcases insert_reserved hReserved.wellFormed hReserved.room hReserve key with
        ⟨hInsert, _⟩ | ⟨b, d, hInsert, _⟩
      · rwa [Except.ok.inj (hRun.unique hInsert)]
      · rw [Except.ok.inj (hRun.unique hInsert), Small, placed_numBuckets]
        exact hu
  · omega

/-- A run with fewer than 112 keys at a time keeps to small tables, and its
insertions fit. -/
theorem runFits_of_fewer (memory : Nat → K × V) {ops : List (Op K)} (h : bp.Fewer 112 ops) :
    RunFits bp memory ops ∧
      ∀ t, ReturnsTo (fun fuel => (Shim.run bp memory fuel ops).run) (.ok t) → Small t := by
  induction ops using List.reverseRecOn with
  | nil =>
      refine ⟨RunFits.nil, fun t hRun => ?_⟩
      rw [← Except.ok.inj ((run_nil bp memory).unique hRun)]
      exact show simdBytes ≤ 2 ^ 7 by decide
  | append_singleton ops op ih =>
      obtain ⟨hFits, hSmall⟩ := ih h.left
      obtain ⟨t, hRun, hReady⟩ := hFits.ready
      have hFew : t.numFilled < 112 := by
        have hCard := h.left.card_lt hReady.holds hReady.kept.nodup
        rwa [Multiset.card_map, hReady.wellFormed.count] at hCard
      constructor
      · refine hFits.concat ?_
        rintro key rfl t' hRun'
        obtain rfl := Except.ok.inj (hRun.unique hRun')
        exact (fits_of_few hReady.wellFormed hFew (hSmall t hRun) memory key).1
      · intro t' hLast
        simp only [run_concat] at hLast
        have hCall := hRun.andThen_iff.mp hLast
        cases op with
        | insert key =>
            exact (fits_of_few hReady.wellFormed hFew (hSmall t hRun) memory key).2 t' hCall
        | erase key =>
            rcases erase_returns hReady.wellFormed key with ⟨b, _, _, hErase⟩ | ⟨hErase, _⟩
            · rw [Except.ok.inj (hCall.unique hErase), Small, eraseAt_numBuckets]
              exact hSmall t hRun
            · rw [Except.ok.inj (hCall.unique hErase)]
              exact hSmall t hRun

/-- A run with fewer than 112 keys at a time loses no key. -/
theorem runRefines_of_fewer (bp : Blueprint K V) (memory : Nat → K × V) (ops : List (Op K))
    (h : bp.Fewer 112 ops) : RunRefines bp memory ops :=
  (runFits_of_fewer memory h).1.refines

end HashBench.Emilib2O
