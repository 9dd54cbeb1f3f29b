import Mathlib.Order.Lattice
import Mathlib.Order.MinMax
import Mathlib.Data.List.Basic

/-! The minimum of a function over a list, taken in one pass from a start. -/
namespace Minimum

variable {S α : Type*} [LinearOrder α]

def lowest (f : S → α) (start : α) (xs : List S) : α :=
  xs.foldl (fun lowest x => min (f x) lowest) start

variable {f : S → α} {start : α} {xs : List S}

theorem lowest_le_start : lowest f start xs ≤ start := by
  induction xs generalizing start with
  | nil => exact le_rfl
  | cons x xs ih => exact ih.trans (min_le_right _ _)

theorem lowest_le {x : S} (hx : x ∈ xs) : lowest f start xs ≤ f x := by
  induction xs generalizing start with
  | nil => exact absurd hx List.not_mem_nil
  | cons y ys ih =>
      rcases List.mem_cons.mp hx with rfl | hx
      · have hLe : lowest f (min (f x) start) ys ≤ min (f x) start := lowest_le_start
        exact hLe.trans (min_le_left _ _)
      · exact ih hx

/-- The minimum is the start, or that of a member. -/
theorem lowest_cases (f : S → α) (start : α) (xs : List S) :
    lowest f start xs = start ∨ ∃ x ∈ xs, f x = lowest f start xs := by
  induction xs generalizing start with
  | nil => exact .inl rfl
  | cons y ys ih =>
      change lowest f (min (f y) start) ys = start ∨
        ∃ x ∈ y :: ys, f x = lowest f (min (f y) start) ys
      rcases ih (min (f y) start) with hStart | ⟨x, hx, hLowest⟩
      · rw [hStart]
        rcases min_choice (f y) start with hMin | hMin
        · exact .inr ⟨y, List.mem_cons_self, hMin.symm⟩
        · exact .inl hMin
      · exact .inr ⟨x, List.mem_cons_of_mem _ hx, hLowest⟩

/-- From a start above all members the minimum is attained. -/
theorem lowest_attained (hStart : ∀ x ∈ xs, f x < start) (hNonempty : xs ≠ []) :
    ∃ x ∈ xs, f x = lowest f start xs := by
  rcases lowest_cases f start xs with hLowest | hAttained
  · obtain ⟨x, hx⟩ := List.exists_mem_of_ne_nil xs hNonempty
    have hLe : lowest f start xs ≤ f x := lowest_le hx
    exact absurd (hLowest ▸ hLe) (not_le.mpr (hStart x hx))
  · exact hAttained

/-- The order of the members does not matter. -/
theorem lowest_perm {ys : List S} (h : xs.Perm ys) : lowest f start xs = lowest f start ys := by
  exact h.foldl_eq' (fun x _ y _ lowest => min_left_comm (f y) (f x) lowest) start

end Minimum
