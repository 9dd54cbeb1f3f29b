import HashBench.Emilib2O.Placement

/-! What placing and erasing a pair do to a table. A pair placed in one of the
first 256 rounds is kept near; in a later one it is lost, since no length that
fits into a byte reaches it. -/
namespace HashBench.Emilib2O

open Search OpenAddressing

variable {K V : Type}

/-- Every pair is where the search for its key finds it, and no key is stored twice. -/
structure Kept (bp : Blueprint K V) (t : Table K V) : Prop where
  tracked : Tracked (fun e : K × V => KeyWithin bp t e.1) (fun e => keyOffset bp t e.1) (slots t)
    t.numBuckets
  nodup : ((contents (slots t) t.numBuckets).map fun e => bp.cls e.1).Nodup

/-- A pair is in a bucket that the first 256 rounds of its probe do not read. -/
def Lost (bp : Blueprint K V) (t : Table K V) : Prop :=
  ∃ p < t.numBuckets, ∃ e, slots t p = .live e ∧ ∀ round < 2 ^ 8, ¬ KeyWithin bp t e.1 round p

/-- One of the first 256 rounds reads a bucket without an entry. -/
def Reaches (bp : Blueprint K V) (t : Table K V) (key : K) : Prop :=
  ∃ round < 2 ^ 8, ∃ b, KeyWithin bp t key round b ∧ (slots t b).isLive = false

/-- A pair placed in the bucket chosen for its key. -/
def placed (bp : Blueprint K V) (t : Table K V) (pair : K × V) (b d : Nat) : Table K V :=
  ((recorded bp t pair.1 d).setStates b (keyH2 bp pair.1)).construct b pair

section Placed

variable {bp : Blueprint K V} {t : Table K V} {pair : K × V} {key : K} {b d : Nat}

theorem placed_eq (bp : Blueprint K V) (t : Table K V) (pair : K × V) (b d : Nat) :
    placed bp t pair b d =
      { states := Function.update t.states b (keyH2 bp pair.1)
        offset := if keyOffset bp t pair.1 < d then
            Function.update t.offset (mainBucket bp t pair.1 / offsetStep) (d % 2 ^ 8)
          else t.offset
        pairs := Function.update t.pairs b pair
        numBuckets := t.numBuckets
        numFilled := t.numFilled + 1 } := by
  unfold placed recorded
  split <;> rfl

theorem placed_numBuckets (bp : Blueprint K V) (t : Table K V) (pair : K × V) (b d : Nat) :
    (placed bp t pair b d).numBuckets = t.numBuckets := by rw [placed_eq]

theorem placed_numFilled (bp : Blueprint K V) (t : Table K V) (pair : K × V) (b d : Nat) :
    (placed bp t pair b d).numFilled = t.numFilled + 1 := by rw [placed_eq]

theorem slots_placed (bp : Blueprint K V) (t : Table K V) (pair : K × V) (b d : Nat) :
    slots (placed bp t pair b d) = Function.update (slots t) b (.live pair) := by
  funext p
  rw [placed_eq]
  by_cases hp : p = b
  · subst hp
    rw [Function.update_self, slots_eq_live_iff, Table.isFilled, decide_eq_true_eq]
    simp only [Function.update_self]
    exact ⟨(keyH2_bounds bp pair.1).1, trivial⟩
  · rw [Function.update_of_ne hp]
    exact slots_congr (Function.update_of_ne hp ..) (Function.update_of_ne hp ..)

theorem mainBucket_placed (bp : Blueprint K V) (t : Table K V) (pair : K × V) (b d : Nat)
    (key : K) : mainBucket bp (placed bp t pair b d) key = mainBucket bp t key := by
  rw [mainBucket, mainBucket, placed_numBuckets]

theorem keyWithin_placed (bp : Blueprint K V) (t : Table K V) (pair : K × V) (b d : Nat)
    (key : K) : KeyWithin bp (placed bp t pair b d) key = KeyWithin bp t key := by
  rw [KeyWithin, KeyWithin, placed_numBuckets, mainBucket_placed]

/-- Lengths grow, and that of the placed pair reaches it. -/
theorem keyOffset_placed (hd : d < 2 ^ 8) (bp : Blueprint K V) (t : Table K V) (pair : K × V)
    (b : Nat) : (∀ key, keyOffset bp t key ≤ keyOffset bp (placed bp t pair b d) key) ∧
      d ≤ keyOffset bp (placed bp t pair b d) pair.1 := by
  have hOffset (key : K) : keyOffset bp (placed bp t pair b d) key =
      if keyOffset bp t pair.1 < d then
        Function.update t.offset (mainBucket bp t pair.1 / offsetStep) d
          (mainBucket bp t key / offsetStep)
      else keyOffset bp t key := by
    rw [keyOffset, Table.getOffset, mainBucket_placed, placed_eq, Nat.mod_eq_of_lt hd]
    split <;> rfl
  constructor
  · intro key
    rw [hOffset]
    split
    · rename_i hLt
      by_cases hCell : mainBucket bp t key / offsetStep = mainBucket bp t pair.1 / offsetStep
      · rw [hCell, Function.update_self, keyOffset, Table.getOffset, hCell]
        exact hLt.le
      · rw [Function.update_of_ne hCell]
        exact Nat.le_refl _
    · exact Nat.le_refl _
  · rw [hOffset]
    split
    · rw [Function.update_self]
    · exact Nat.not_lt.mp ‹_›

theorem contents_placed (bp : Blueprint K V) (pair : K × V) (d : Nat) (hb : b < t.numBuckets)
    (hFree : (slots t b).isLive = false) :
    contents (slots (placed bp t pair b d)) (placed bp t pair b d).numBuckets =
      pair ::ₘ contents (slots t) t.numBuckets := by
  rw [slots_placed, placed_numBuckets, contents_update_live hb (Slot.entries_of_not_live hFree)]

theorem WellFormed.placed (h : WellFormed bp t) (hRoom : 8 * t.numFilled < 7 * t.numBuckets)
    (hChosen : Chosen bp t pair.1 b d) (hValue : pair.2 = bp.valueType) :
    WellFormed bp (placed bp t pair b d) := by
  have hb := hChosen.1.within.2
  have hCount := contents_placed bp pair d hb hChosen.1.free
  refine ⟨?_, fun p hp hp' => ?_, fun p hp => ?_, fun e he => ?_, ?_, ?_, fun c => ?_⟩
  · rw [placed_numBuckets]
    exact h.size
  · rw [placed_numBuckets] at hp hp'
    rw [placed_eq]
    exact (Function.update_of_ne (hb.trans_le hp).ne' _ _).trans (h.outside p hp hp')
  · rw [placed_numBuckets] at hp
    rw [placed_eq]
    by_cases hEq : p = b
    · subst hEq
      simp only [Function.update_self, or_true]
    · simp only [Function.update_of_ne hEq]
      exact h.states p hp
  · rw [hCount] at he
    rcases Multiset.mem_cons.mp he with rfl | hOld
    · exact hValue
    · exact h.values e hOld
  · rw [hCount, Multiset.card_cons, h.count, placed_numFilled]
  · obtain ⟨k, _, hSize⟩ := h.size
    rw [Nat.pow_add] at hSize
    rw [placed_numFilled, placed_numBuckets]
    omega
  · rw [placed_eq]
    by_cases hLt : keyOffset bp t pair.1 < d
    · simp only [if_pos hLt]
      by_cases hCell : c = mainBucket bp t pair.1 / offsetStep
      · rw [hCell, Function.update_self]
        exact Nat.mod_lt _ (by decide)
      · rw [Function.update_of_ne hCell]
        exact h.byte c
    · simp only [if_neg hLt]
      exact h.byte c

/-- The round of the chosen bucket fits into a byte exactly if one that does
reads a bucket without an entry. -/
theorem Chosen.lt_iff (h : WellFormed bp t) (hChosen : Chosen bp t key b d) :
    d < 2 ^ 8 ↔ Reaches bp t key := by
  constructor
  · intro hd
    exact ⟨d, hd, b, hChosen.1.within, hChosen.1.free⟩
  · rintro ⟨round, hRound, q, hq, hFree⟩
    rcases hChosen.2 with hLe | hTaken
    · exact hLe.trans_lt (h.byte _)
    · by_contra hBeyond
      rw [hTaken round (by omega) q hq] at hFree
      cases hFree

theorem Kept.placed (h : Kept bp t) (hChosen : Chosen bp t pair.1 b d) (hd : d < 2 ^ 8)
    (hNew : bp.cls pair.1 ∉ (contents (slots t) t.numBuckets).map fun e => bp.cls e.1) :
    Kept bp (placed bp t pair b d) := by
  obtain ⟨hGrow, hReach⟩ := keyOffset_placed hd bp t pair b
  constructor
  · rw [slots_placed, placed_numBuckets]
    simp only [keyWithin_placed]
    exact h.tracked.store (fun e => hGrow e.1)
      ⟨d, hReach, hChosen.1.within, fun j hj q hq => hChosen.1.before j hj q hq⟩
  · rw [contents_placed _ _ _ hChosen.1.within.2 hChosen.1.free, Multiset.map_cons, Multiset.nodup_cons]
    exact ⟨hNew, h.nodup⟩

/-- A pair that is lost stays lost. -/
theorem Lost.placed (h : Lost bp t) (hFree : (slots t b).isLive = false) :
    Lost bp (placed bp t pair b d) := by
  obtain ⟨p, hp, e, hLive, hFar⟩ := h
  refine ⟨p, (placed_numBuckets ..).symm ▸ hp, e, ?_, ?_⟩
  · rw [slots_placed, Function.update_of_ne, hLive]
    rintro rfl
    rw [hLive] at hFree
    cases hFree
  · rw [keyWithin_placed]
    exact hFar

/-- A pair that no round within a byte has room for is lost. -/
theorem lost_placed (hChosen : Chosen bp t pair.1 b d) (hNot : ¬ Reaches bp t pair.1) :
    Lost bp (placed bp t pair b d) := by
  refine ⟨b, (placed_numBuckets ..).symm ▸ hChosen.1.within.2, pair, ?_, fun round hRound hAt => ?_⟩
  · rw [slots_placed, Function.update_self]
  · rw [keyWithin_placed] at hAt
    exact hNot ⟨round, hRound, b, hAt, hChosen.1.free⟩

end Placed

section Erased

variable {bp : Blueprint K V} {t : Table K V} {e : K × V} {b : Nat}

theorem eraseAt_of_more (h : t.numFilled - 1 ≠ 0) (b : Nat) : eraseAt t b =
    { t with states := Function.update t.states b eDelete, numFilled := t.numFilled - 1 } :=
  if_neg h

/-- With the last pair all buckets are emptied. -/
theorem eraseAt_of_last (h : t.numFilled - 1 = 0) (b : Nat) : eraseAt t b =
    { t with
      states := fun p =>
        if p < t.numBuckets then eEmpty else Function.update t.states b eDelete p
      offset := fun c => if c < t.numBuckets / offsetStep then 0 else t.offset c
      numFilled := t.numFilled - 1 } :=
  if_pos h

theorem eraseAt_numBuckets (t : Table K V) (b : Nat) :
    (eraseAt t b).numBuckets = t.numBuckets := by
  by_cases hLast : t.numFilled - 1 = 0
  · rw [eraseAt_of_last hLast]
  · rw [eraseAt_of_more hLast]

theorem eraseAt_numFilled (t : Table K V) (b : Nat) :
    (eraseAt t b).numFilled = t.numFilled - 1 := by
  by_cases hLast : t.numFilled - 1 = 0
  · rw [eraseAt_of_last hLast]
  · rw [eraseAt_of_more hLast]

theorem keyWithin_eraseAt (bp : Blueprint K V) (t : Table K V) (b : Nat) (key : K) :
    KeyWithin bp (eraseAt t b) key = KeyWithin bp t key := by
  rw [KeyWithin, KeyWithin, mainBucket, mainBucket, eraseAt_numBuckets]

theorem slots_eraseAt_of_more (h : t.numFilled - 1 ≠ 0) (b : Nat) :
    slots (eraseAt t b) = Function.update (slots t) b .deleted := by
  funext p
  rw [eraseAt_of_more h]
  by_cases hp : p = b
  · subst hp
    rw [Function.update_self, slots, Table.isFilled, Table.isEmpty]
    simp only [Function.update_self]
    rfl
  · rw [Function.update_of_ne hp]
    exact slots_congr (Function.update_of_ne hp ..) rfl

theorem slots_eraseAt_of_last (h : t.numFilled - 1 = 0) (b : Nat) {p : Nat}
    (hp : p < t.numBuckets) : slots (eraseAt t b) p = .empty := by
  rw [← isEmpty_iff, eraseAt_of_last h, Table.isEmpty, beq_iff_eq]
  exact if_pos hp

theorem contents_eraseAt (h : WellFormed bp t) (hb : b < t.numBuckets)
    (hLive : slots t b = .live e) :
    e ::ₘ contents (slots (eraseAt t b)) (eraseAt t b).numBuckets =
      contents (slots t) t.numBuckets := by
  rw [eraseAt_numBuckets]
  by_cases hLast : t.numFilled - 1 = 0
  · -- The pair was the only one.
    obtain ⟨rest, hRest⟩ := Multiset.exists_cons_of_mem (mem_contents.mpr ⟨b, hb, hLive⟩)
    have hCount := h.count
    rw [hRest, Multiset.card_cons] at hCount
    obtain rfl : rest = 0 := Multiset.card_eq_zero.mp (by omega)
    have hNone : contents (slots (eraseAt t b)) t.numBuckets = 0 :=
      total_eq_zero _ fun p hp => by rw [slots_eraseAt_of_last hLast b hp]; rfl
    rw [hNone, hRest]
  · rw [slots_eraseAt_of_more hLast]
    exact contents_update_cleared hb hLive rfl

theorem WellFormed.eraseAt (h : WellFormed bp t) (hb : b < t.numBuckets)
    (hLive : slots t b = .live e) : WellFormed bp (eraseAt t b) := by
  have hContents := contents_eraseAt h hb hLive
  have hCount := h.count
  have hLoad := h.load
  rw [← hContents, Multiset.card_cons] at hCount
  refine ⟨?_, fun p hp hp' => ?_, fun p hp => ?_, fun e' he' => ?_, ?_, ?_, fun c => ?_⟩
  · rw [eraseAt_numBuckets]
    exact h.size
  · rw [eraseAt_numBuckets] at hp hp'
    have hKept := (Function.update_of_ne (hb.trans_le hp).ne' eDelete t.states).trans
      (h.outside p hp hp')
    by_cases hLast : t.numFilled - 1 = 0
    · rw [eraseAt_of_last hLast]
      exact (if_neg (Nat.not_lt.mpr hp)).trans hKept
    · rw [eraseAt_of_more hLast]
      exact hKept
  · rw [eraseAt_numBuckets] at hp
    by_cases hLast : t.numFilled - 1 = 0
    · rw [eraseAt_of_last hLast]
      exact Or.inl (if_pos hp)
    · rw [eraseAt_of_more hLast]
      by_cases hEq : p = b
      · subst hEq
        exact Or.inr (Or.inl (Function.update_self ..))
      · simp only [Function.update_of_ne hEq]
        exact h.states p hp
  · exact h.values e' (hContents ▸ Multiset.mem_cons_of_mem he')
  · rw [eraseAt_numFilled]
    omega
  · rw [eraseAt_numFilled, eraseAt_numBuckets]
    omega
  · by_cases hLast : t.numFilled - 1 = 0
    · rw [eraseAt_of_last hLast]
      dsimp only
      split
      · exact Nat.two_pow_pos 8
      · exact h.byte c
    · rw [eraseAt_of_more hLast]
      exact h.byte c

theorem Kept.eraseAt (hKept : Kept bp t) (h : WellFormed bp t) (hb : b < t.numBuckets)
    (hLive : slots t b = .live e) : Kept bp (eraseAt t b) := by
  constructor
  · rw [eraseAt_numBuckets]
    by_cases hLast : t.numFilled - 1 = 0
    · exact Tracked.of_empty fun p hp => slots_eraseAt_of_last hLast b hp
    · have hOffset (key : K) : keyOffset bp (Emilib2O.eraseAt t b) key = keyOffset bp t key := by
        rw [keyOffset, keyOffset, Table.getOffset, Table.getOffset, mainBucket, mainBucket,
          eraseAt_of_more hLast]
      simp only [slots_eraseAt_of_more hLast, keyWithin_eraseAt, hOffset]
      exact hKept.tracked.bury b
  · have hNodup := hKept.nodup
    rw [← contents_eraseAt h hb hLive, Multiset.map_cons] at hNodup
    exact (Multiset.nodup_cons.mp hNodup).2

end Erased

end HashBench.Emilib2O
