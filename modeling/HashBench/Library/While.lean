import HashBench.Library.Search

/-! While loops under a fuel, which bounds the number of rounds. -/
namespace While

open Search Filter

variable {σ : Type*}

/-- `while (cond) step`. -/
def loop (cond : σ → Bool) (step : σ → σ) : Nat → σ → Option σ
  | 0, _ => none
  | fuel + 1, s => if cond s then loop cond step fuel (step s) else some s

variable {cond : σ → Bool} {step : σ → σ}

/-- The rule of total correctness. The invariant is indexed by a bound on the
rounds that are left, which every round lowers. -/
theorem returns (inv : Nat → σ → Prop) {d : Nat} {s : σ} (h : inv d s)
    (hStep : ∀ d s, inv d s → cond s = true → ∃ d' < d, inv d' (step s)) :
    ∃ d' s', ReturnsTo (fun fuel => loop cond step fuel s) s' ∧ inv d' s' ∧ cond s' = false := by
  induction d using Nat.strong_induction_on generalizing s with
  | _ d ih =>
      cases hCond : cond s with
      | false =>
          refine ⟨d, s, ReturnsTo.of_succ ?_, h, hCond⟩
          simp only [loop, hCond, Bool.false_eq_true, if_false]
          exact ReturnsTo.pure s
      | true =>
          obtain ⟨d₁, hLess, hInv⟩ := hStep d s h hCond
          obtain ⟨d', s', hReturns, hLast⟩ := ih d₁ hLess hInv
          refine ⟨d', s', ReturnsTo.of_succ ?_, hLast⟩
          simpa only [loop, hCond, if_true] using hReturns

end While
