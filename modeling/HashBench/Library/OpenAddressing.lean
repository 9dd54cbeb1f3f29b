import HashBench.Library.Search
import Mathlib.Algebra.BigOperators.Group.Finset.Piecewise
import Mathlib.Algebra.Order.BigOperators.Group.Finset
import Mathlib.Data.Finset.Update
import Mathlib.Data.Multiset.AddSub
import Mathlib.Algebra.BigOperators.Group.Multiset.Basic
import Mathlib.Tactic.Abel

/-! Open addressing with tombstones. A table is a function from slot numbers
to slots, of which the first `n` count. Each entry determines the sequence of
slots that a lookup of it inspects. -/
namespace OpenAddressing

open Search

/-- What one slot of the table holds. -/
inductive Slot (E : Type*) where
  | empty
  | deleted
  | live (entry : E)
  deriving DecidableEq

variable {E : Type*}

namespace Slot

def isEmpty : Slot E → Bool
  | empty => true
  | _ => false

def isDeleted : Slot E → Bool
  | deleted => true
  | _ => false

def isLive : Slot E → Bool
  | live _ => true
  | _ => false

/-- The entries a slot contributes to the table. -/
def entries : Slot E → Multiset E
  | live e => {e}
  | _ => 0

/-- Whether a slot counts as filled: live entries and tombstones do. -/
def filled : Slot E → Nat
  | empty => 0
  | _ => 1

/-- Whether a slot counts as a tombstone. -/
def grave : Slot E → Nat
  | deleted => 1
  | _ => 0

/-- A lookup stops at an empty slot and at a live entry it accepts. -/
def stops (hit : E → Bool) : Slot E → Bool
  | empty => true
  | deleted => false
  | live e => hit e

@[simp] theorem entries_empty : (empty : Slot E).entries = 0 := rfl
@[simp] theorem entries_deleted : (deleted : Slot E).entries = 0 := rfl
@[simp] theorem entries_live (e : E) : (live e).entries = {e} := rfl
@[simp] theorem filled_empty : (empty : Slot E).filled = 0 := rfl
@[simp] theorem filled_deleted : (deleted : Slot E).filled = 1 := rfl
@[simp] theorem filled_live (e : E) : (live e).filled = 1 := rfl
@[simp] theorem grave_empty : (empty : Slot E).grave = 0 := rfl
@[simp] theorem grave_deleted : (deleted : Slot E).grave = 1 := rfl
@[simp] theorem grave_live (e : E) : (live e).grave = 0 := rfl
@[simp] theorem isEmpty_empty : (empty : Slot E).isEmpty = true := rfl
@[simp] theorem isEmpty_deleted : (deleted : Slot E).isEmpty = false := rfl
@[simp] theorem isEmpty_live (e : E) : (live e).isEmpty = false := rfl
@[simp] theorem isDeleted_empty : (empty : Slot E).isDeleted = false := rfl
@[simp] theorem isDeleted_deleted : (deleted : Slot E).isDeleted = true := rfl
@[simp] theorem isDeleted_live (e : E) : (live e).isDeleted = false := rfl
@[simp] theorem isLive_empty : (empty : Slot E).isLive = false := rfl
@[simp] theorem isLive_deleted : (deleted : Slot E).isLive = false := rfl
@[simp] theorem isLive_live (e : E) : (live e).isLive = true := rfl
@[simp] theorem stops_empty (hit : E → Bool) : (empty : Slot E).stops hit = true := rfl
@[simp] theorem stops_deleted (hit : E → Bool) : (deleted : Slot E).stops hit = false := rfl
@[simp] theorem stops_live (hit : E → Bool) (e : E) : (live e).stops hit = hit e := rfl

theorem isEmpty_iff {s : Slot E} : s.isEmpty = true ↔ s = empty := by
  cases s <;> simp

theorem isDeleted_iff {s : Slot E} : s.isDeleted = true ↔ s = deleted := by
  cases s <;> simp

theorem filled_le_one (s : Slot E) : s.filled ≤ 1 := by
  cases s <;> simp

theorem filled_eq_zero_iff {s : Slot E} : s.filled = 0 ↔ s = empty := by
  cases s <;> simp

theorem entries_of_not_live {s : Slot E} (h : s.isLive = false) : s.entries = 0 := by
  cases s with
  | empty => rfl
  | deleted => rfl
  | live e => cases h

theorem free_or_live (s : Slot E) : s.entries = 0 ∨ ∃ e, s = live e := by
  cases s with
  | empty => exact Or.inl rfl
  | deleted => exact Or.inl rfl
  | live e => exact Or.inr ⟨e, rfl⟩

/-- Live entries and tombstones are the two ways of being filled. -/
theorem filled_eq (s : Slot E) : s.filled = s.entries.card + s.grave := by
  cases s <;> simp

end Slot

section Totals

variable {M : Type*} [AddCommMonoid M]

/-- Sum a per-slot quantity over the table. -/
def total (f : Slot E → M) (slots : Nat → Slot E) (n : Nat) : M :=
  ∑ p ∈ Finset.range n, f (slots p)

/-- Overwriting one slot moves the total by that slot's own quantity. -/
theorem total_update (f : Slot E → M) (slots : Nat → Slot E) {n p : Nat} (hp : p < n)
    (s : Slot E) :
    total f (Function.update slots p s) n + f (slots p) = total f slots n + f s := by
  have hMem : p ∈ Finset.range n := Finset.mem_range.mpr hp
  have hRest : ∑ q ∈ (Finset.range n).erase p, f (Function.update slots p s q) =
      ∑ q ∈ (Finset.range n).erase p, f (slots q) := by
    refine Finset.sum_congr rfl fun q hq => ?_
    rw [Function.update_of_ne (Finset.ne_of_mem_erase hq)]
  unfold total
  rw [← Finset.add_sum_erase _ _ hMem, ← Finset.add_sum_erase _ (fun q => f (slots q)) hMem,
    hRest, Function.update_self]
  abel

theorem total_congr (f : Slot E → M) {slots slots' : Nat → Slot E} {n : Nat}
    (h : ∀ p < n, slots p = slots' p) : total f slots n = total f slots' n :=
  Finset.sum_congr rfl fun p hp => by rw [h p (Finset.mem_range.mp hp)]

theorem total_succ (f : Slot E → M) (slots : Nat → Slot E) (n : Nat) :
    total f slots (n + 1) = total f slots n + f (slots n) :=
  Finset.sum_range_succ _ _

theorem total_eq_zero (f : Slot E → M) {slots : Nat → Slot E} {n : Nat}
    (h : ∀ p < n, f (slots p) = 0) : total f slots n = 0 :=
  Finset.sum_eq_zero fun p hp => h p (Finset.mem_range.mp hp)

/-- Slots that contribute nothing past `n` do not change the total. -/
theorem total_extend (f : Slot E → M) {slots : Nat → Slot E} {n m : Nat} (hLe : n ≤ m)
    (h : ∀ p, n ≤ p → p < m → f (slots p) = 0) : total f slots m = total f slots n := by
  refine (Finset.sum_subset (Finset.range_subset_range.mpr hLe) ?_).symm
  intro p hp hNot
  exact h p (by simpa using hNot) (Finset.mem_range.mp hp)

end Totals

/-- The multiset of live entries among the first `n` slots. -/
def contents (slots : Nat → Slot E) (n : Nat) : Multiset E :=
  total Slot.entries slots n

theorem mem_contents {slots : Nat → Slot E} {n : Nat} {e : E} :
    e ∈ contents slots n ↔ ∃ p < n, slots p = .live e := by
  unfold contents total
  rw [Multiset.mem_sum]
  constructor
  · rintro ⟨p, hp, he⟩
    refine ⟨p, Finset.mem_range.mp hp, ?_⟩
    cases hs : slots p with
    | empty => simp [hs] at he
    | deleted => simp [hs] at he
    | live e' => simp only [hs, Slot.entries_live, Multiset.mem_singleton] at he; rw [he]
  · rintro ⟨p, hp, hs⟩
    exact ⟨p, Finset.mem_range.mpr hp, by simp [hs]⟩

/-- More slots hold no fewer entries. -/
theorem contents_le (slots : Nat → Slot E) {n m : Nat} (h : n ≤ m) :
    contents slots n ≤ contents slots m :=
  Finset.sum_le_sum_of_subset (Finset.range_subset_range.mpr h)

/-- The live entries of the first `n` slots, in slot order. -/
def liveList (slots : Nat → Slot E) : Nat → List E
  | 0 => []
  | n + 1 =>
      match slots n with
      | .live e => liveList slots n ++ [e]
      | _ => liveList slots n

theorem coe_liveList (slots : Nat → Slot E) (n : Nat) :
    (liveList slots n : Multiset E) = contents slots n := by
  induction n with
  | zero => rfl
  | succ n ih =>
      rw [contents, total_succ, liveList]
      cases hs : slots n with
      | empty => simpa [contents] using ih
      | deleted => simpa [contents] using ih
      | live e =>
          rw [← Multiset.coe_add, ih]
          rfl

theorem liveList_succ_left (slots : Nat → Slot E) (n : Nat) :
    liveList slots (n + 1) =
      match slots 0 with
      | .live e => e :: liveList (fun i => slots (i + 1)) n
      | _ => liveList (fun i => slots (i + 1)) n := by
  induction n with
  | zero =>
      simp only [liveList]
      cases slots 0 <;> rfl
  | succ n ih =>
      rw [liveList, ih]
      simp only [liveList]
      cases slots 0 <;> cases slots (n + 1) <;> rfl

/-- Filling a slot that held no entry adds the entry. -/
theorem contents_update_live {slots : Nat → Slot E} {n p : Nat} (hp : p < n)
    (hFree : (slots p).entries = 0) (e : E) :
    contents (Function.update slots p (.live e)) n = e ::ₘ contents slots n := by
  have h := total_update Slot.entries slots hp (.live e)
  rw [hFree, add_zero, Slot.entries_live] at h
  rw [contents, h, Multiset.add_comm, Multiset.singleton_add]
  rfl

/-- Clearing a live slot removes its entry. -/
theorem contents_update_cleared {slots : Nat → Slot E} {n p : Nat} (hp : p < n) {e : E}
    (hLive : slots p = .live e) {s : Slot E} (hs : s.entries = 0) :
    e ::ₘ contents (Function.update slots p s) n = contents slots n := by
  have h := total_update Slot.entries slots hp s
  rw [hs, add_zero, hLive, Slot.entries_live] at h
  rw [contents, contents, ← h, Multiset.add_comm, Multiset.singleton_add]

/-- Replacing one entry by another exchanges them. -/
theorem contents_update_swap {slots : Nat → Slot E} {n p : Nat} (hp : p < n) {e : E}
    (hLive : slots p = .live e) (e' : E) :
    e ::ₘ contents (Function.update slots p (.live e')) n = e' ::ₘ contents slots n := by
  have h := total_update Slot.entries slots hp (.live e')
  rw [hLive, Slot.entries_live, Slot.entries_live] at h
  rw [← Multiset.singleton_add, ← Multiset.singleton_add, add_comm, add_comm ({e'} : Multiset E)]
  exact h

/-- Overwriting a slot without entries by another such slot keeps the contents. -/
theorem contents_update_free {slots : Nat → Slot E} {n p : Nat} (hp : p < n)
    (hFree : (slots p).entries = 0) {s : Slot E} (hs : s.entries = 0) :
    contents (Function.update slots p s) n = contents slots n := by
  have h := total_update Slot.entries slots hp s
  rwa [hs, add_zero, hFree, add_zero] at h

/-- Two live slots whose entries share a key of a duplicate-free table are one. -/
theorem slot_unique {K : Type*} {slots : Nat → Slot E} {n : Nat} {key : E → K}
    (hNodup : ((contents slots n).map key).Nodup) {p q : Nat} {e e' : E} (hp : p < n)
    (hq : q < n) (hpe : slots p = .live e) (hqe : slots q = .live e')
    (hKey : key e = key e') : p = q := by
  by_contra hNe
  rw [← contents_update_cleared hp hpe Slot.entries_empty, Multiset.map_cons,
    Multiset.nodup_cons] at hNodup
  apply hNodup.1
  rw [hKey]
  refine Multiset.mem_map_of_mem key (mem_contents.mpr ⟨q, hq, ?_⟩)
  rw [Function.update_of_ne (Ne.symm hNe), hqe]

/-- The number of filled slots is the number of entries and tombstones. -/
theorem total_filled (slots : Nat → Slot E) (n : Nat) :
    total Slot.filled slots n = (contents slots n).card + total Slot.grave slots n := by
  unfold contents total
  rw [Multiset.card_sum, ← Finset.sum_add_distrib]
  exact Finset.sum_congr rfl fun p _ => Slot.filled_eq (slots p)

/-- Counting the live slots counts the entries. -/
theorem card_filter_live (slots : Nat → Slot E) (n : Nat) :
    ((Finset.range n).filter fun p => (slots p).isLive = true).card = (contents slots n).card := by
  rw [Finset.card_filter, contents, total, Multiset.card_sum]
  refine Finset.sum_congr rfl fun p _ => ?_
  cases slots p <;> simp

/-- A table of live slots only has an entry for each. -/
theorem card_contents_of_live {slots : Nat → Slot E} {n : Nat}
    (h : ∀ p < n, ∃ e, slots p = .live e) : (contents slots n).card = n := by
  rw [← card_filter_live, Finset.filter_true_of_mem, Finset.card_range]
  intro p hp
  obtain ⟨e, hLive⟩ := h p (Finset.mem_range.mp hp)
  rw [hLive]
  rfl

/-- Counting the deleted slots counts the tombstones. -/
theorem card_filter_deleted (slots : Nat → Slot E) (n : Nat) :
    ((Finset.range n).filter fun p => (slots p).isDeleted = true).card =
      total Slot.grave slots n := by
  rw [Finset.card_filter, total]
  refine Finset.sum_congr rfl fun p _ => ?_
  cases slots p <;> simp

/-- A table with fewer than `n` filled slots has an empty one. -/
theorem exists_empty {slots : Nat → Slot E} {n : Nat} (h : total Slot.filled slots n < n) :
    ∃ p < n, slots p = .empty := by
  by_contra hNone
  have hAll : ∀ p ∈ Finset.range n, 1 ≤ (slots p).filled := by
    intro p hp
    refine Nat.one_le_iff_ne_zero.mpr fun hZero => hNone ⟨p, Finset.mem_range.mp hp, ?_⟩
    exact Slot.filled_eq_zero_iff.mp hZero
  have hSum := Finset.card_nsmul_le_sum (Finset.range n) (fun p => (slots p).filled) 1 hAll
  have hLe : n ≤ total Slot.filled slots n := by simpa [total] using hSum
  exact absurd h (not_lt.mpr hLe)

theorem total_filled_le (slots : Nat → Slot E) (n : Nat) : total Slot.filled slots n ≤ n := by
  have hSum := Finset.sum_le_card_nsmul (Finset.range n) (fun p => (slots p).filled) 1
    fun p _ => (slots p).filled_le_one
  simpa [total] using hSum

/-- An empty slot keeps the filled slots below `n`. -/
theorem total_filled_lt {slots : Nat → Slot E} {n p : Nat} (hp : p < n)
    (hEmpty : slots p = .empty) : total Slot.filled slots n < n := by
  have hLe : ∀ q ∈ Finset.range n, (slots q).filled ≤ 1 := fun q _ => (slots q).filled_le_one
  have hLt : ∃ q ∈ Finset.range n, (slots q).filled < 1 :=
    ⟨p, Finset.mem_range.mpr hp, by simp [hEmpty]⟩
  have hSum := Finset.sum_lt_sum hLe hLt
  simpa [total] using hSum

/-- Slot `p` is met along `seq` before any empty slot. -/
def Reach (slots : Nat → Slot E) (seq : Nat → Nat) (p : Nat) : Prop :=
  ∃ j, seq j = p ∧ ∀ i < j, slots (seq i) ≠ .empty

/-- Filling slots, even by tombstones, cuts no probe path. -/
theorem Reach.update {slots : Nat → Slot E} {seq : Nat → Nat} {p : Nat}
    (h : Reach slots seq p) (q : Nat) {s : Slot E} (hs : s ≠ .empty) :
    Reach (Function.update slots q s) seq p := by
  obtain ⟨j, hj, hPath⟩ := h
  refine ⟨j, hj, fun i hi => ?_⟩
  by_cases hq : seq i = q
  · rw [hq, Function.update_self]
    exact hs
  · rw [Function.update_of_ne hq]
    exact hPath i hi

/-- Every live entry is met by its own lookup before any empty slot. -/
def Probed (seq : E → Nat → Nat) (slots : Nat → Slot E) (n : Nat) : Prop :=
  ∀ p < n, ∀ e, slots p = .live e → Reach slots (seq e) p

namespace Probed

variable {seq : E → Nat → Nat} {slots : Nat → Slot E} {n : Nat}

/-- An entry may be written to any slot its probe path reaches. -/
theorem insert (h : Probed seq slots n) {q : Nat} {e : E} (hReach : Reach slots (seq e) q) :
    Probed seq (Function.update slots q (.live e)) n := by
  intro p hp e' hLive
  by_cases hq : p = q
  · subst hq
    rw [Function.update_self, Slot.live.injEq] at hLive
    subst hLive
    exact hReach.update p (by simp)
  · rw [Function.update_of_ne hq] at hLive
    exact (h p hp e' hLive).update q (by simp)

/-- A tombstone keeps every other entry reachable. -/
theorem delete (h : Probed seq slots n) (q : Nat) :
    Probed seq (Function.update slots q .deleted) n := by
  intro p hp e hLive
  by_cases hq : p = q
  · subst hq
    simp at hLive
  · rw [Function.update_of_ne hq] at hLive
    exact (h p hp e hLive).update q (by simp)

/-- A lookup that stopped at an empty slot missed no acceptable entry. -/
theorem lookup_sound (h : Probed seq slots n) {hit : E → Bool} {probe : Nat → Nat} {m : Nat}
    (hBefore : ∀ i < m, (slots (probe i)).stops hit = false) (hEmpty : slots (probe m) = .empty)
    {p : Nat} {e : E} (hp : p < n) (hLive : slots p = .live e) (hSeq : seq e = probe) :
    hit e = false := by
  obtain ⟨j, hj, hPath⟩ := h p hp e hLive
  rw [hSeq] at hj hPath
  rcases Nat.lt_trichotomy j m with hLt | rfl | hGt
  · simpa [hj, hLive] using hBefore j hLt
  · rw [hj, hLive] at hEmpty
    cases hEmpty
  · exact absurd hEmpty (hPath m hGt)

end Probed

/-- The path before the first stop of a lookup crosses no empty slot. -/
theorem ne_empty_of_stops_eq_false {s : Slot E} {hit : E → Bool} (h : s.stops hit = false) :
    s ≠ .empty := by
  rintro rfl
  simp at h

end OpenAddressing
