import HashBench.Library.Search

/-! Probe loops that also end when they are back at the position they started
from. Over a sequence that comes back such a loop ends in any table. -/
namespace Search

variable {σ : Type*}

/-- Position `j` of the sequence is the starting one, met again. -/
def Back (seq : Nat → Nat) (j : Nat) : Prop := 0 < j ∧ seq j = seq 0

instance (seq : Nat → Nat) (j : Nat) : Decidable (Back seq j) :=
  inferInstanceAs (Decidable (_ ∧ _))

/-- Inspect `seq 0`, `seq 1`, and so on until a position satisfies `stop` or
the loop is back at the first one. -/
def searchCircle (stop : Nat → Bool) (update : Nat → σ → σ) (seq : Nat → Nat) (fuel : Nat)
    (acc : σ) : Option (Nat × σ) :=
  search (fun j => decide (Back seq j) || stop (seq j)) (fun j => update (seq j)) id fuel 0 acc

theorem trail_id (update : Nat → σ → σ) (seq : Nat → Nat) (count : Nat) (acc : σ) :
    trail (fun j => update (seq j)) id count acc = trail update seq count acc := by
  induction count with
  | zero => rfl
  | succ count ih => rw [trail, trail, ih, id]

variable {stop : Nat → Bool} {update : Nat → σ → σ} {seq : Nat → Nat}

/-- The loop passed every position before the one it ended at. -/
theorem searchCircle_eq_some {fuel m : Nat} {acc result : σ}
    (h : searchCircle stop update seq fuel acc = some (m, result)) :
    (∀ i < m, stop (seq i) = false) ∧ (Back seq m ∨ stop (seq m) = true) ∧
      result = trail update seq m acc := by
  obtain ⟨_, hBefore, hAt, rfl⟩ := search_eq_some h
  refine ⟨fun i hi => ?_, by simpa using hAt, trail_id update seq m acc⟩
  have hPassed := hBefore i hi
  rw [Bool.or_eq_false_iff] at hPassed
  exact hPassed.2

/-- A sequence that comes back ends every such loop. -/
theorem searchCircle_returns (stop : Nat → Bool) (update : Nat → σ → σ) (h : ∃ j, Back seq j)
    (acc : σ) :
    ∃ found, ReturnsTo (fun fuel => searchCircle stop update seq fuel acc) found := by
  obtain ⟨j, hj⟩ := h
  exact search_returns _ id ⟨j, by simp [hj]⟩ _ acc

/-- Keep the last marked position among those inspected. -/
def noteLast (mark : Nat → Bool) (p noted : Nat) : Nat := if mark p = true then p else noted

/-- What is noted is the initial value, if no inspected position was marked,
or else a marked one. -/
theorem trail_noteLast (mark : Nat → Bool) (seq : Nat → Nat) (count none : Nat) :
    (trail (noteLast mark) seq count none = none ∧ ∀ i < count, mark (seq i) = false) ∨
      ∃ i < count, mark (seq i) = true ∧ trail (noteLast mark) seq count none = seq i := by
  induction count with
  | zero => exact Or.inl ⟨rfl, fun i hi => absurd hi (Nat.not_lt_zero i)⟩
  | succ count ih =>
      rw [trail, noteLast]
      by_cases hMark : mark (seq count) = true
      · exact Or.inr ⟨count, Nat.lt_succ_self count, hMark, if_pos hMark⟩
      · rw [if_neg hMark]
        rcases ih with ⟨hNone, hBefore⟩ | ⟨i, hi, hMarked, hNoted⟩
        · refine Or.inl ⟨hNone, fun i hi => ?_⟩
          rcases Nat.lt_succ_iff_lt_or_eq.mp hi with hLt | rfl
          · exact hBefore i hLt
          · exact Bool.eq_false_iff.mpr hMark
        · exact Or.inr ⟨i, Nat.lt_succ_of_lt hi, hMarked, hNoted⟩

end Search
