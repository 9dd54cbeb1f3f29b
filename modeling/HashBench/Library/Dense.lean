import Mathlib.Data.Multiset.Basic
import Mathlib.Data.List.Perm.Basic

/-! Vectors without holes: the last element takes the place of one that is removed. -/
namespace Dense

variable {α : Type*} {l : List α} {i : Nat}

/-- Overwriting an element exchanges it. -/
theorem cons_set (hi : i < l.length) (a : α) : l[i] ::ₘ (l.set i a : Multiset α) = a ::ₘ l := by
  have hSet := List.getElem_cons_eraseIdx_perm (l := l.set i a) (by simpa using hi)
  rw [List.eraseIdx_set_eq, List.getElem_set_self] at hSet
  have hOld := List.getElem_cons_eraseIdx_perm hi
  rw [Multiset.cons_coe, Multiset.cons_coe, Multiset.coe_eq_coe]
  calc (l[i] :: l.set i a).Perm (l[i] :: a :: l.eraseIdx i) := hSet.symm.cons _
    _ |>.Perm (a :: l[i] :: l.eraseIdx i) := List.Perm.swap ..
    _ |>.Perm (a :: l) := hOld.cons _

def swapRemove (l : List α) (i : Nat) : List α :=
  match l.getLast? with
  | none => []
  | some back => (l.set i back).dropLast

theorem swapRemove_eq {back : α} (h : l.getLast? = some back) :
    swapRemove l i = (l.set i back).dropLast := by
  rw [swapRemove, h]

theorem swapRemove_last (l : List α) : swapRemove l (l.length - 1) = l.dropLast := by
  cases h : l.getLast? with
  | none => simp [swapRemove, List.getLast?_eq_none_iff.mp h]
  | some back =>
      obtain ⟨front, rfl⟩ := List.getLast?_eq_some_iff.mp h
      simp [swapRemove]

theorem length_swapRemove (l : List α) (i : Nat) : (swapRemove l i).length = l.length - 1 := by
  cases h : l.getLast? with
  | none => simp [swapRemove, List.getLast?_eq_none_iff.mp h]
  | some back => simp [swapRemove_eq h]

/-- The elements before the last and away from the hole stay where they are. -/
theorem getElem?_swapRemove_of_ne {j : Nat} (hj : j < l.length - 1) (hNe : j ≠ i) :
    (swapRemove l i)[j]? = l[j]? := by
  cases h : l.getLast? with
  | none => simp [List.getLast?_eq_none_iff.mp h] at hj
  | some back =>
      rw [swapRemove_eq h, List.getElem?_dropLast, List.length_set, if_pos hj,
        List.getElem?_set_ne hNe.symm]

/-- The hole is filled by the last element. -/
theorem getElem?_swapRemove_self (hi : i < l.length - 1) : (swapRemove l i)[i]? = l.getLast? := by
  cases h : l.getLast? with
  | none => simp [List.getLast?_eq_none_iff.mp h] at hi
  | some back =>
      rw [swapRemove_eq h, List.getElem?_dropLast, List.length_set, if_pos hi,
        List.getElem?_set_self (by omega)]

/-- Exactly the one element is removed. -/
theorem cons_swapRemove (hi : i < l.length) : l[i] ::ₘ (swapRemove l i : Multiset α) = l := by
  obtain ⟨back, hBack⟩ : ∃ back, l.getLast? = some back := by
    cases h : l.getLast? with
    | none => simp [List.getLast?_eq_none_iff.mp h] at hi
    | some back => exact ⟨back, rfl⟩
  obtain ⟨front, rfl⟩ := List.getLast?_eq_some_iff.mp hBack
  rw [swapRemove_eq hBack]
  rw [List.length_append, List.length_singleton] at hi
  rcases Nat.lt_succ_iff_lt_or_eq.mp hi with hLess | rfl
  · rw [List.set_append_left _ _ hLess, List.dropLast_concat, List.getElem_append_left hLess,
      cons_set hLess, Multiset.cons_coe, Multiset.coe_eq_coe]
    exact (List.perm_append_singleton back front).symm
  · rw [List.set_append_right _ _ (Nat.le_refl _), Multiset.cons_coe, Multiset.coe_eq_coe]
    simpa using (List.perm_append_singleton back front).symm

end Dense
