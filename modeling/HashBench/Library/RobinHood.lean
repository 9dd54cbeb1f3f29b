import HashBench.Library.OpenAddressing
import HashBench.Library.Cyclic

/-! Robin Hood hashing on a circle of cells. A cell has a rank, which is zero
when it is empty and otherwise grows by `inc` with every cell between the cell
and the home of its item. Along a run of occupied cells the rank never grows by
more than `inc` from a cell to the next, so that a lookup may stop at the first
cell of a lower rank than the one it would have there. -/
namespace RobinHood

open OpenAddressing

structure Cell (A : Type*) where
  rank : Nat
  item : A

variable {A : Type*}

/-- The slot of a cell. -/
def Cell.slot (cell : Cell A) : Slot A := if cell.rank = 0 then .empty else .live cell.item

/-- The items of the first `n` cells. -/
def items (cells : Nat → Cell A) (n : Nat) : Multiset A := contents (fun p => (cells p).slot) n

theorem Cell.slot_eq_live {cell : Cell A} (h : cell.rank ≠ 0) : cell.slot = .live cell.item :=
  if_neg h

theorem Cell.slot_eq_empty {cell : Cell A} (h : cell.rank = 0) : cell.slot = .empty := if_pos h

theorem slot_update (cells : Nat → Cell A) (p : Nat) (cell : Cell A) :
    (fun q => (Function.update cells p cell q).slot) =
      Function.update (fun q => (cells q).slot) p cell.slot := by
  funext q
  by_cases hq : q = p
  · simp [hq]
  · simp [hq]

theorem mem_items {cells : Nat → Cell A} {n : Nat} {a : A} :
    a ∈ items cells n ↔ ∃ p < n, (cells p).rank ≠ 0 ∧ (cells p).item = a := by
  rw [items, mem_contents]
  constructor
  · rintro ⟨p, hp, hLive⟩
    by_cases hRank : (cells p).rank = 0
    · simp [Cell.slot, hRank] at hLive
    · rw [Cell.slot_eq_live hRank, Slot.live.injEq] at hLive
      exact ⟨p, hp, hRank, hLive⟩
  · rintro ⟨p, hp, hRank, rfl⟩
    exact ⟨p, hp, Cell.slot_eq_live hRank⟩

/-- Items that occur once lie in one cell. -/
theorem cell_unique {cells : Nat → Cell A} {n p q : Nat} (hNodup : (items cells n).Nodup)
    (hp : p < n) (hq : q < n) (hpTaken : (cells p).rank ≠ 0) (hqTaken : (cells q).rank ≠ 0)
    (hSame : (cells p).item = (cells q).item) : p = q := by
  have hMap : ((items cells n).map id).Nodup := by rwa [Multiset.map_id]
  exact slot_unique hMap hp hq (Cell.slot_eq_live hpTaken) (Cell.slot_eq_live hqTaken) hSame

/-- Writing to an empty cell adds an item. -/
theorem items_fill {cells : Nat → Cell A} {n p : Nat} (hp : p < n) (hEmpty : (cells p).rank = 0)
    {cell : Cell A} (hRank : cell.rank ≠ 0) :
    items (Function.update cells p cell) n = cell.item ::ₘ items cells n := by
  rw [items, slot_update, Cell.slot_eq_live hRank]
  exact contents_update_live hp (by simp [Cell.slot_eq_empty hEmpty]) _

/-- Writing to an occupied cell exchanges two items. -/
theorem items_exchange {cells : Nat → Cell A} {n p : Nat} (hp : p < n)
    (hTaken : (cells p).rank ≠ 0) {cell : Cell A} (hRank : cell.rank ≠ 0) :
    (cells p).item ::ₘ items (Function.update cells p cell) n = cell.item ::ₘ items cells n := by
  rw [items, slot_update, Cell.slot_eq_live hRank]
  exact contents_update_swap hp (Cell.slot_eq_live hTaken) _

/-- Emptying an occupied cell removes its item. -/
theorem items_clear {cells : Nat → Cell A} {n p : Nat} (hp : p < n)
    (hTaken : (cells p).rank ≠ 0) {cell : Cell A} (hRank : cell.rank = 0) :
    (cells p).item ::ₘ items (Function.update cells p cell) n = items cells n := by
  rw [items, slot_update, Cell.slot_eq_empty hRank]
  exact contents_update_cleared hp (Cell.slot_eq_live hTaken) Slot.entries_empty

/-- Fewer items than cells leave a cell empty. -/
theorem exists_empty {cells : Nat → Cell A} {n : Nat} (h : (items cells n).card < n) :
    ∃ p < n, (cells p).rank = 0 := by
  by_contra hNone
  refine h.ne (card_contents_of_live fun p hp => ⟨(cells p).item, Cell.slot_eq_live fun hRank => ?_⟩)
  exact hNone ⟨p, hp, hRank⟩

variable (n inc : Nat) (home base : A → Nat)

/-- The rank that the next cell may have at most. -/
def lift (rank : Nat) : Nat := if rank = 0 then 2 * inc - 1 else rank + inc

/-- A cell whose content belongs at `p`. -/
def Placed (p : Nat) (cell : Cell A) : Prop :=
  ∃ j, cell.rank = base cell.item + j * inc ∧ (home cell.item + j) % n = p

structure Ordered (cells : Nat → Cell A) : Prop where
  placed : ∀ p < n, (cells p).rank ≠ 0 → Placed n inc home base p (cells p)
  ordered : ∀ p < n, (cells ((p + 1) % n)).rank ≤ lift inc (cells p).rank

/-- A cell that may be written at `place` or carried on from there. -/
structure Carried (cells : Nat → Cell A) (place : Nat) (cell : Cell A) : Prop where
  inside : place < n
  placed : Placed n inc home base place cell
  bounded : ∀ p < n, (p + 1) % n = place → cell.rank ≤ lift inc (cells p).rank

variable {n inc home base} {cells : Nat → Cell A} {p : Nat} {cell : Cell A}

/-- Ranks of first cells: less than two increments. -/
def BaseRanks (inc : Nat) (base : A → Nat) : Prop := ∀ a, inc ≤ base a ∧ base a < 2 * inc

theorem lift_zero : lift inc 0 = 2 * inc - 1 := rfl

theorem lift_of_ne {rank : Nat} (h : rank ≠ 0) : lift inc rank = rank + inc := if_neg h

theorem next_injective {q : Nat} (hp : p < n) (hq : q < n) (h : (p + 1) % n = (q + 1) % n) :
    p = q := by
  rw [Nat.add_comm p, Nat.add_comm q] at h
  exact Cyclic.eq_of_step hp hq h

theorem next_lt (hp : p < n) : (p + 1) % n < n := Nat.mod_lt _ (Nat.zero_lt_of_lt hp)

theorem next_ne (hp : p < n) (hTwo : 1 < n) : (p + 1) % n ≠ p := by
  intro hSame
  rcases Nat.lt_or_eq_of_le (Nat.succ_le_of_lt hp) with hLess | hEnd
  · rw [Nat.mod_eq_of_lt hLess] at hSame
    omega
  · rw [← hEnd, Nat.mod_self] at hSame
    omega

/-- Every cell lies ahead of every other. -/
theorem exists_ahead {q : Nat} (hq : q < n) (p : Nat) : ∃ d < n, (p + d) % n = q := by
  have hn : 0 < n := Nat.zero_lt_of_lt hq
  have hp : p % n < n := Nat.mod_lt p hn
  refine ⟨(q + n - p % n) % n, Nat.mod_lt _ hn, ?_⟩
  have hSum : p % n + (q + n - p % n) = q + n := by omega
  rw [Nat.add_mod_mod, ← Nat.mod_add_mod, hSum, Nat.add_mod_right, Nat.mod_eq_of_lt hq]

namespace Ordered

variable (h : Ordered n inc home base cells)
include h

/-- The rank of an occupied cell is at least one increment. -/
theorem inc_le (hBase : BaseRanks inc base) (hp : p < n) (hTaken : (cells p).rank ≠ 0) :
    inc ≤ (cells p).rank := by
  obtain ⟨j, hRank, _⟩ := h.placed p hp hTaken
  have hLow := (hBase (cells p).item).1
  omega

/-- Going backwards ranks fall by no more than the increment. -/
theorem before {s j low : Nat} (hLow : inc ≤ low) (hInc : 0 < inc) (hn : 0 < n)
    (hReach : low + j * inc ≤ (cells ((s + j) % n)).rank) {i : Nat} (hi : i ≤ j) :
    low + i * inc ≤ (cells ((s + i) % n)).rank := by
  induction j with
  | zero =>
      obtain rfl := Nat.le_zero.mp hi
      exact hReach
  | succ j ih =>
      rcases Nat.le_succ_iff.mp hi with hLess | rfl
      · apply ih _ hLess
        have hNext := h.ordered ((s + j) % n) (Nat.mod_lt _ hn)
        rw [Nat.mod_add_mod, Nat.add_assoc] at hNext
        by_cases hEmpty : (cells ((s + j) % n)).rank = 0
        · rw [hEmpty, lift_zero] at hNext
          have hMul := Nat.add_mul j 1 inc
          omega
        · rw [lift_of_ne hEmpty] at hNext
          have hMul := Nat.add_mul j 1 inc
          omega
      · exact hReach

/-- An empty cell ends every path. -/
theorem reach_lt {s j low q : Nat} (hLow : inc ≤ low) (hInc : 0 < inc) (hq : q < n)
    (hEmpty : (cells q).rank = 0) (hReach : low + j * inc ≤ (cells ((s + j) % n)).rank) : j < n := by
  by_contra hLe
  obtain ⟨i, hi, rfl⟩ := exists_ahead hq s
  have hPath := h.before hLow hInc (Nat.zero_lt_of_lt hq) hReach (by omega : i ≤ j)
  omega

/-- A path is no longer than there are items. -/
theorem reach_card {s j low q : Nat} (hLow : inc ≤ low) (hInc : 0 < inc) (hq : q < n)
    (hEmpty : (cells q).rank = 0) (hReach : low + j * inc ≤ (cells ((s + j) % n)).rank) :
    j + 1 ≤ (items cells n).card := by
  have hn := Nat.zero_lt_of_lt hq
  have hLess := h.reach_lt hLow hInc hq hEmpty hReach
  rw [items, ← card_filter_live, ← Finset.card_range (j + 1)]
  apply Finset.card_le_card_of_injOn fun i => (s + i) % n
  · intro i hi
    have hPath := h.before hLow hInc hn hReach (Nat.le_of_lt_succ (Finset.mem_range.mp hi))
    simp only [Finset.coe_filter, Finset.mem_range, Set.mem_ofPred_eq]
    exact ⟨Nat.mod_lt _ hn, by rw [Cell.slot_eq_live (by omega)]; rfl⟩
  · intro i hi i' hi' hSame
    simp only [Finset.coe_range, Set.mem_Iio] at hi hi'
    exact Cyclic.eq_of_step (by omega) (by omega) hSame

/-- Ranks are bounded by the number of items. -/
theorem rank_lt (hBase : BaseRanks inc base) (hInc : 0 < inc) {q : Nat} (hq : q < n)
    (hEmpty : (cells q).rank = 0) (hp : p < n) :
    (cells p).rank < ((items cells n).card + 1) * inc := by
  by_cases hTaken : (cells p).rank = 0
  · rw [hTaken]
    exact Nat.mul_pos (Nat.succ_pos _) hInc
  · obtain ⟨j, hRank, hAt⟩ := h.placed p hp hTaken
    have hCard := h.reach_card (hBase _).1 hInc hq hEmpty (hAt ▸ Nat.le_of_eq hRank.symm)
    have hMul := Nat.mul_le_mul_right inc hCard
    have hHigh := (hBase (cells p).item).2
    rw [Nat.add_mul, Nat.one_mul] at hMul ⊢
    omega

/-- An item lies ahead of a lookup of it that has not met it. -/
theorem not_yet (hBase : BaseRanks inc base) (hInc : 0 < inc) (hp : p < n)
    (hTaken : (cells p).rank ≠ 0) {j : Nat}
    (hMiss : ∀ i < j, (home (cells p).item + i) % n = p →
      base (cells p).item + i * inc ≠ (cells p).rank) :
    base (cells p).item + j * inc ≤ (cells ((home (cells p).item + j) % n)).rank := by
  obtain ⟨j', hRank, hAt⟩ := h.placed p hp hTaken
  have hLe : j ≤ j' := by
    by_contra hLess
    exact hMiss j' (Nat.lt_of_not_le hLess) hAt hRank.symm
  refine h.before (hBase _).1 hInc (Nat.zero_lt_of_lt hp) ?_ hLe
  rw [hAt, ← hRank]

end Ordered

/-- A table without items. -/
theorem Ordered.of_empty (h : ∀ p < n, (cells p).rank = 0) : Ordered n inc home base cells where
  placed p hp hTaken := absurd (h p hp) hTaken
  ordered p hp := by simp [h _ (next_lt hp)]

theorem items_of_empty (h : ∀ p < n, (cells p).rank = 0) : items cells n = 0 :=
  total_eq_zero _ fun p hp => by simp [Cell.slot_eq_empty (h p hp)]

/-- The items may be other ones with the same homes. -/
theorem Ordered.relabel (h : Ordered n inc home base cells) {B : Type*} {home' base' : B → Nat}
    {cells' : Nat → Cell B} (hRank : ∀ p < n, (cells' p).rank = (cells p).rank)
    (hSame : ∀ p < n, (cells p).rank ≠ 0 → home' (cells' p).item = home (cells p).item ∧
      base' (cells' p).item = base (cells p).item) : Ordered n inc home' base' cells' where
  placed p hp hTaken := by
    rw [hRank p hp] at hTaken
    obtain ⟨hHome, hBase⟩ := hSame p hp hTaken
    simpa only [Placed, hRank p hp, hHome, hBase] using h.placed p hp hTaken
  ordered p hp := by
    rw [hRank p hp, hRank _ (next_lt hp)]
    exact h.ordered p hp

/-- A cell and a rank that a walk from `start` comes to past cells of no lower ranks. -/
def Sought (n inc : Nat) (cells : Nat → Cell A) (start low place rank : Nat) : Prop :=
  ∃ j, rank = low + j * inc ∧ (start + j) % n = place ∧
    ∀ i < j, low + i * inc ≤ (cells ((start + i) % n)).rank

namespace Sought

variable {start low place rank : Nat}

theorem first (cells : Nat → Cell A) (h : place < n) : Sought n inc cells place low place low :=
  ⟨0, by simp, by simp [Nat.mod_eq_of_lt h], by simp⟩

theorem inside (h : Sought n inc cells start low place rank) (hn : 0 < n) : place < n := by
  obtain ⟨j, _, rfl, _⟩ := h
  exact Nat.mod_lt _ hn

theorem pass (h : Sought n inc cells start low place rank) (hRank : rank ≤ (cells place).rank) :
    Sought n inc cells start low ((place + 1) % n) (rank + inc) := by
  obtain ⟨j, rfl, rfl, hPath⟩ := h
  refine ⟨j + 1, by rw [Nat.add_mul, Nat.one_mul, Nat.add_assoc], ?_, ?_⟩
  · rw [Nat.mod_add_mod, Nat.add_assoc]
  · intro i hi
    rcases Nat.lt_succ_iff_lt_or_eq.mp hi with hLess | rfl
    · exact hPath i hLess
    · exact hRank

/-- What is sought may be written where the walk has come to. -/
theorem carried (h : Sought n inc cells start low place rank)
    (hOrdered : Ordered n inc home base cells) (hBase : BaseRanks inc base) (hInc : 0 < inc)
    (hn : 0 < n) {a : A} (hHome : home a = start) (hLow : base a = low) :
    Carried n inc home base cells place ⟨rank, a⟩ := by
  refine ⟨h.inside hn, ?_, ?_⟩
  · obtain ⟨j, rfl, rfl, _⟩ := h
    exact ⟨j, by rw [hLow], by rw [hHome]⟩
  · intro p hp hNext
    obtain ⟨j, rfl, rfl, hPath⟩ := h
    have hBounds := hBase a
    rw [hLow] at hBounds
    cases j with
    | zero =>
        by_cases hEmpty : (cells p).rank = 0
        · rw [hEmpty, lift_zero]
          simp only [Nat.zero_mul, Nat.add_zero]
          omega
        · rw [lift_of_ne hEmpty]
          have hInc := hOrdered.inc_le hBase hp hEmpty
          simp only [Nat.zero_mul, Nat.add_zero]
          omega
    | succ j =>
        rw [← Nat.add_assoc, ← Nat.mod_add_mod (start + j)] at hNext
        obtain rfl := next_injective hp (Nat.mod_lt _ hn) hNext
        have hLast := hPath j (Nat.lt_succ_self j)
        have hMul := Nat.add_mul j 1 inc
        rw [lift_of_ne (by omega)]
        simp only
        omega

/-- The rank of a walk is bounded by the number of items. -/
theorem rank_lt (h : Sought n inc cells start low place rank)
    (hOrdered : Ordered n inc home base cells) (hBase : BaseRanks inc base) (hInc : 0 < inc)
    (hLow : low < 2 * inc) {q : Nat} (hq : q < n) (hEmpty : (cells q).rank = 0) :
    rank < ((items cells n).card + 2) * inc := by
  have hn := Nat.zero_lt_of_lt hq
  obtain ⟨j, rfl, _, hPath⟩ := h
  rw [Nat.add_mul]
  cases j with
  | zero => omega
  | succ j =>
      have hLast := hPath j (Nat.lt_succ_self j)
      have hRank := hOrdered.rank_lt hBase hInc hq hEmpty (Nat.mod_lt (start + j) hn)
      rw [Nat.add_mul, Nat.one_mul] at hRank
      rw [Nat.add_mul, Nat.one_mul]
      omega

end Sought

namespace Carried

variable {place : Nat}

/-- Past a cell of no lower rank. -/
theorem pass (h : Carried n inc home base cells place cell)
    (hTaken : (cells place).rank ≠ 0) (hRank : cell.rank ≤ (cells place).rank) :
    Carried n inc home base cells ((place + 1) % n) ⟨cell.rank + inc, cell.item⟩ := by
  refine ⟨next_lt h.inside, ?_, ?_⟩
  · obtain ⟨j, hj, hAt⟩ := h.placed
    refine ⟨j + 1, by rw [hj, Nat.add_mul, Nat.one_mul, Nat.add_assoc], ?_⟩
    rw [← hAt, Nat.mod_add_mod, Nat.add_assoc]
  · intro p hp hNext
    obtain rfl := next_injective hp h.inside hNext
    rw [lift_of_ne hTaken]
    exact Nat.add_le_add_right hRank inc

theorem rank_ne (h : Carried n inc home base cells place cell) (hBase : BaseRanks inc base)
    (hInc : 0 < inc) : cell.rank ≠ 0 := by
  obtain ⟨j, hj, _⟩ := h.placed
  have hLow := (hBase cell.item).1
  omega

/-- A cell takes the place of one of no higher rank. -/
theorem write (h : Carried n inc home base cells place cell)
    (hOrdered : Ordered n inc home base cells) (hBase : BaseRanks inc base) (hInc : 0 < inc)
    (hRank : (cells place).rank ≤ cell.rank) :
    Ordered n inc home base (Function.update cells place cell) := by
  have hNe := h.rank_ne hBase hInc
  refine ⟨?_, ?_⟩
  · intro p hp hTaken
    by_cases hPlace : p = place
    · subst hPlace
      simpa using h.placed
    · rw [Function.update_of_ne hPlace] at hTaken ⊢
      exact hOrdered.placed p hp hTaken
  · intro p hp
    have hNext := hOrdered.ordered p hp
    by_cases hPlace : p = place
    · subst hPlace
      rw [Function.update_self, lift_of_ne hNe]
      by_cases hSame : (p + 1) % n = p
      · rw [hSame, Function.update_self]
        omega
      · rw [Function.update_of_ne hSame]
        by_cases hEmpty : (cells p).rank = 0
        · rw [hEmpty, lift_zero] at hNext
          obtain ⟨j, hj, _⟩ := h.placed
          have hLow := (hBase cell.item).1
          omega
        · rw [lift_of_ne hEmpty] at hNext
          omega
    · rw [Function.update_of_ne hPlace]
      by_cases hAt : (p + 1) % n = place
      · rw [hAt, Function.update_self]
        exact h.bounded p hp hAt
      · rw [Function.update_of_ne hAt]
        exact hNext

/-- The cell that was there is carried on. -/
theorem exchange (h : Carried n inc home base cells place cell)
    (hOrdered : Ordered n inc home base cells) (hBase : BaseRanks inc base) (hInc : 0 < inc)
    (hTaken : (cells place).rank ≠ 0) (hRank : (cells place).rank ≤ cell.rank) :
    Carried n inc home base (Function.update cells place cell) ((place + 1) % n)
      ⟨(cells place).rank + inc, (cells place).item⟩ := by
  refine ⟨next_lt h.inside, ?_, ?_⟩
  · obtain ⟨j, hj, hAt⟩ := hOrdered.placed place h.inside hTaken
    refine ⟨j + 1, by rw [hj, Nat.add_mul, Nat.one_mul, Nat.add_assoc], ?_⟩
    rw [← Nat.add_assoc, ← Nat.mod_add_mod, hAt]
  · intro p hp hNext
    obtain rfl := next_injective hp h.inside hNext
    rw [Function.update_self, lift_of_ne (h.rank_ne hBase hInc)]
    exact Nat.add_le_add_right hRank inc

/-- The next cell has no higher rank than the one that is carried on. -/
theorem next_le (hOrdered : Ordered n inc home base cells) {place : Nat} (hPlace : place < n)
    (hTwo : 1 < n) (hTaken : (cells place).rank ≠ 0) (cell : Cell A) :
    (Function.update cells place cell ((place + 1) % n)).rank ≤ (cells place).rank + inc := by
  rw [Function.update_of_ne (next_ne hPlace hTwo), ← lift_of_ne hTaken]
  exact hOrdered.ordered place hPlace

/-- The rank that is carried is bounded by the number of items. -/
theorem rank_lt (h : Carried n inc home base cells place cell)
    (hOrdered : Ordered n inc home base cells) (hBase : BaseRanks inc base) (hInc : 0 < inc)
    {q : Nat} (hq : q < n) (hEmpty : (cells q).rank = 0) :
    cell.rank < ((items cells n).card + 2) * inc := by
  obtain ⟨p, hp, hNext⟩ : ∃ p < n, (p + 1) % n = place := by
    obtain ⟨d, hd, hAt⟩ := exists_ahead h.inside 1
    exact ⟨d, hd, by rw [Nat.add_comm, hAt]⟩
  have hBound := h.bounded p hp hNext
  have hRank := hOrdered.rank_lt hBase hInc hq hEmpty hp
  rw [Nat.add_mul, Nat.one_mul] at hRank
  rw [Nat.add_mul]
  by_cases hZero : (cells p).rank = 0
  · rw [hZero, lift_zero] at hBound
    omega
  · rw [lift_of_ne hZero] at hBound
    omega

end Carried

section Shift

variable {b : Nat}

/-- The next cell is copied back over a cell. -/
theorem Ordered.copyBack (h : Ordered n inc home base cells) (hBase : BaseRanks inc base)
    (hInc : 0 < inc) (hb : b < n) (hNext : 2 * inc ≤ (cells ((b + 1) % n)).rank) :
    Ordered n inc home base (Function.update cells b
      ⟨(cells ((b + 1) % n)).rank - inc, (cells ((b + 1) % n)).item⟩) := by
  have hStep := h.ordered b hb
  have hTaken : (cells b).rank ≠ 0 := by
    intro hEmpty
    rw [hEmpty, lift_zero] at hStep
    omega
  rw [lift_of_ne hTaken] at hStep
  refine ⟨?_, ?_⟩
  · intro p hp hp'
    by_cases hSame : p = b
    · subst hSame
      rw [Function.update_self]
      obtain ⟨j, hj, hAt⟩ := h.placed _ (next_lt hp) (by omega)
      have hHigh := (hBase (cells ((p + 1) % n)).item).2
      cases j with
      | zero =>
          rw [Nat.zero_mul] at hj
          omega
      | succ j =>
          refine ⟨j, ?_, ?_⟩
          · rw [Nat.add_mul, Nat.one_mul] at hj
            simp only
            omega
          · rw [← Nat.add_assoc, ← Nat.mod_add_mod (home _ + j)] at hAt
            exact next_injective (Nat.mod_lt _ (Nat.zero_lt_of_lt hp)) hp hAt
    · rw [Function.update_of_ne hSame] at hp' ⊢
      exact h.placed p hp hp'
  · intro p hp
    have hOld := h.ordered p hp
    by_cases hSame : p = b
    · subst hSame
      rw [Function.update_self, lift_of_ne (by simp only; omega)]
      by_cases hLoop : (p + 1) % n = p
      · rw [hLoop, Function.update_self]
        omega
      · rw [Function.update_of_ne hLoop]
        simp only
        omega
    · rw [Function.update_of_ne hSame]
      by_cases hAt : (p + 1) % n = b
      · rw [hAt] at hOld ⊢
        rw [Function.update_self]
        simp only
        omega
      · rw [Function.update_of_ne hAt]
        exact hOld

/-- A cell may be emptied if the next one is empty or at home. -/
theorem Ordered.clear (h : Ordered n inc home base cells)
    (hNext : (cells ((b + 1) % n)).rank < 2 * inc) (hCell : cell.rank = 0) :
    Ordered n inc home base (Function.update cells b cell) := by
  refine ⟨?_, ?_⟩
  · intro p hp hTaken
    by_cases hSame : p = b
    · subst hSame
      simp [hCell] at hTaken
    · rw [Function.update_of_ne hSame] at hTaken ⊢
      exact h.placed p hp hTaken
  · intro p hp
    by_cases hAt : (p + 1) % n = b
    · rw [hAt, Function.update_self, hCell]
      exact Nat.zero_le _
    · rw [Function.update_of_ne hAt]
      by_cases hSame : p = b
      · subst hSame
        rw [Function.update_self, hCell, lift_zero]
        omega
      · rw [Function.update_of_ne hSame]
        exact h.ordered p hp

end Shift

end RobinHood
