import Mathlib.Data.Set.Insert

/-! Keys that share their type with two markers, one for empty and one for
deleted slots. Markers are compared by identity and all other keys by a relation
of their own. -/
namespace Sentinels

/-- The two values that are not keys. -/
structure Markers (S : Type*) where
  empty : S
  tombstone : S
  distinct : empty ≠ tombstone

/-- The relation is an equivalence among the members of the set. -/
structure EquivalenceOn {S : Type*} (A : Set S) (r : S → S → Bool) : Prop where
  refl : ∀ a ∈ A, r a a = true
  symm : ∀ a ∈ A, ∀ b ∈ A, r a b = true → r b a = true
  trans : ∀ a ∈ A, ∀ b ∈ A, ∀ c ∈ A, r a b = true → r b c = true → r a c = true

namespace Markers

variable {S : Type*} [DecidableEq S] (m : Markers S)

def marks (k : S) : Bool := k == m.empty || k == m.tombstone

/-- The keys that are not markers. -/
def unmarked : Set S := {k | m.marks k = false}

/-- The relation, with both markers compared by identity. -/
def extend (r : S → S → Bool) (a b : S) : Bool :=
  if m.marks a || m.marks b then a == b else r a b

variable {m} {r : S → S → Bool} {a b : S}

theorem marks_iff : m.marks a = true ↔ a = m.empty ∨ a = m.tombstone := by
  rw [marks, Bool.or_eq_true, beq_iff_eq, beq_iff_eq]

theorem marks_empty : m.marks m.empty = true := marks_iff.mpr (.inl rfl)

theorem marks_tombstone : m.marks m.tombstone = true := marks_iff.mpr (.inr rfl)

/-- A marker is equal to itself alone. -/
theorem extend_marks (h : m.marks a = true) : m.extend r a b = true ↔ a = b := by
  rw [extend, h, Bool.true_or, if_pos rfl, beq_iff_eq]

theorem extend_unmarked (ha : a ∈ m.unmarked) (hb : b ∈ m.unmarked) :
    m.extend r a b = r a b := by
  have ha : m.marks a = false := ha
  have hb : m.marks b = false := hb
  rw [extend, ha, hb, Bool.or_self, if_neg Bool.false_ne_true]

theorem extend_of_marks (h : (m.marks a || m.marks b) = true) : m.extend r a b = (a == b) :=
  if_pos h

/-- A marker and a key are different. -/
theorem beq_of_marks (ha : a ∈ m.unmarked) (hb : m.marks b = true) : (a == b) = false := by
  refine beq_eq_false_iff_ne.mpr fun hEq => ?_
  exact Bool.false_ne_true ((hEq ▸ ha : m.marks b = false).symm.trans hb)

/-- Keys that compare equal are one marker, or related keys. -/
theorem extend_cases (h : m.extend r a b = true) :
    a = b ∨ a ∈ m.unmarked ∧ b ∈ m.unmarked ∧ r a b = true := by
  cases ha : m.marks a with
  | true => exact .inl ((extend_marks ha).mp h)
  | false =>
      cases hb : m.marks b with
      | true =>
          rw [extend_of_marks (by rw [hb, Bool.or_true]), beq_iff_eq] at h
          exact .inl h
      | false => exact .inr ⟨ha, hb, extend_unmarked (m := m) (r := r) ha hb ▸ h⟩

/-- The members of the set, and the markers. -/
def stored (m : Markers S) (A : Set S) : Set S := {k | k ∈ A ∨ m.marks k = true}

variable {A : Set S}

theorem mem_of_stored (h : a ∈ m.stored A) (hUnmarked : a ∈ m.unmarked) : a ∈ A :=
  h.resolve_right fun hMarks =>
    Bool.false_ne_true ((hUnmarked : m.marks a = false).symm.trans hMarks)

/-- What relates the keys as an equivalence relates keys and markers as one. -/
theorem extend_equivalence (h : EquivalenceOn A r) :
    EquivalenceOn (m.stored A) (m.extend r) := by
  refine ⟨fun a ha => ?_, fun a ha b hb hab => ?_, fun a ha b hb c hc hab hbc => ?_⟩
  · cases hMarks : m.marks a with
    | true => exact (extend_marks hMarks).mpr rfl
    | false => exact (extend_unmarked hMarks hMarks).trans (h.refl a (mem_of_stored ha hMarks))
  · rcases extend_cases hab with rfl | ⟨hNotA, hNotB, hRel⟩
    · exact hab
    · rw [extend_unmarked hNotB hNotA]
      exact h.symm a (mem_of_stored ha hNotA) b (mem_of_stored hb hNotB) hRel
  · rcases extend_cases hab with rfl | ⟨hNotA, hNotB, hRel⟩
    · exact hbc
    · rcases extend_cases hbc with rfl | ⟨-, hNotC, hRel'⟩
      · exact hab
      · rw [extend_unmarked hNotA hNotC]
        exact h.trans a (mem_of_stored ha hNotA) b (mem_of_stored hb hNotB) c (mem_of_stored hc hNotC)
          hRel hRel'

end Markers

end Sentinels
