import HashBench.Library.OpenAddressing
import Mathlib.Order.Interval.Finset.Nat

/-! Open addressing by rounds. Each round of a probe reads several slots at
once, and a lookup reads no more rounds than a length that is kept for the
entries that share it. -/
namespace OpenAddressing

variable {E : Type*}

/-- Slot `p` is read in one of the rounds up to `bound`, and the rounds before
that one read no empty slot. -/
def Near (within : Nat → Nat → Prop) (slots : Nat → Slot E) (bound p : Nat) : Prop :=
  ∃ d ≤ bound, within d p ∧ ∀ j < d, ∀ q, within j q → slots q ≠ .empty

namespace Near

variable {within : Nat → Nat → Prop} {slots : Nat → Slot E} {bound p : Nat}

theorem mono (h : Near within slots bound p) {bound' : Nat} (hLe : bound ≤ bound') :
    Near within slots bound' p := by
  obtain ⟨d, hd, hAt, hBefore⟩ := h
  exact ⟨d, hd.trans hLe, hAt, hBefore⟩

/-- Filling slots, even by tombstones, brings no slot out of reach. -/
theorem update (h : Near within slots bound p) (q : Nat) {s : Slot E} (hs : s ≠ .empty) :
    Near within (Function.update slots q s) bound p := by
  obtain ⟨d, hd, hAt, hBefore⟩ := h
  refine ⟨d, hd, hAt, fun j hj q' hq' => ?_⟩
  by_cases hq : q' = q
  · rw [hq, Function.update_self]
    exact hs
  · rw [Function.update_of_ne hq]
    exact hBefore j hj q' hq'

end Near

/-- Every live entry is near by the rounds and the length of its own probe. -/
def Tracked (within : E → Nat → Nat → Prop) (bound : E → Nat) (slots : Nat → Slot E)
    (n : Nat) : Prop :=
  ∀ p < n, ∀ e, slots p = .live e → Near (within e) slots (bound e) p

namespace Tracked

variable {within : E → Nat → Nat → Prop} {bound bound' : E → Nat} {slots : Nat → Slot E} {n : Nat}

theorem of_empty (h : ∀ p < n, slots p = .empty) : Tracked within bound slots n := by
  intro p hp e hLive
  rw [h p hp] at hLive
  cases hLive

/-- An entry may be written to any slot near it, by lengths that have not shrunk. -/
theorem store (h : Tracked within bound slots n) (hLe : ∀ e, bound e ≤ bound' e) {q : Nat} {e : E}
    (hNear : Near (within e) slots (bound' e) q) :
    Tracked within bound' (Function.update slots q (.live e)) n := by
  intro p hp e' hLive
  by_cases hq : p = q
  · subst hq
    rw [Function.update_self, Slot.live.injEq] at hLive
    subst hLive
    exact hNear.update p (by simp)
  · rw [Function.update_of_ne hq] at hLive
    exact ((h p hp e' hLive).mono (hLe e')).update q (by simp)

/-- A tombstone keeps every other entry near. -/
theorem bury (h : Tracked within bound slots n) (q : Nat) :
    Tracked within bound (Function.update slots q .deleted) n := by
  intro p hp e hLive
  by_cases hq : p = q
  · subst hq
    simp at hLive
  · rw [Function.update_of_ne hq] at hLive
    exact (h p hp e hLive).update q (by simp)

end Tracked

/-- A table with fewer entries than slots, even without the first slot, has a
slot other than the first that holds no entry. -/
theorem exists_free {slots : Nat → Slot E} {n : Nat} (h : (contents slots n).card + 1 < n) :
    ∃ p, 0 < p ∧ p < n ∧ (slots p).isLive = false := by
  by_contra hNone
  have hSubset : Finset.Ico 1 n ⊆ (Finset.range n).filter fun p => (slots p).isLive = true := by
    intro p hp
    obtain ⟨hPos, hLt⟩ := Finset.mem_Ico.mp hp
    refine Finset.mem_filter.mpr ⟨Finset.mem_range.mpr hLt, ?_⟩
    by_contra hFree
    exact hNone ⟨p, hPos, hLt, Bool.eq_false_iff.mpr hFree⟩
  have hCard := Finset.card_le_card hSubset
  rw [card_filter_live, Nat.card_Ico] at hCard
  omega

end OpenAddressing
