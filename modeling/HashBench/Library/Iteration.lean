import Mathlib.Data.List.Range
import Mathlib.Data.List.Nodup

/-! Iterators that are tested, read, and advanced until the test fails, and
the special case of an index that skips the unused cells of an array. -/
namespace Iteration

variable {ι κ : Type*}

/-- Reading `key` and applying `next` while `valid` holds yields exactly this
list and then ends. -/
inductive Visits (valid : ι → Bool) (next : ι → ι) (key : ι → κ) : ι → List κ → Prop where
  | done {it : ι} (h : valid it = false) : Visits valid next key it []
  | step {it : ι} {rest : List κ} (h : valid it = true)
      (tail : Visits valid next key (next it) rest) : Visits valid next key it (key it :: rest)

theorem Visits.cons {valid : ι → Bool} {next : ι → ι} {key : ι → κ} {it : ι} {k : κ}
    {rest : List κ} (hValid : valid it = true) (hKey : key it = k)
    (tail : Visits valid next key (next it) rest) : Visits valid next key it (k :: rest) :=
  hKey ▸ .step hValid tail

/-- What a walk that visits something begins with. -/
theorem Visits.uncons {valid : ι → Bool} {next : ι → ι} {key : ι → κ} {it : ι} {k : κ}
    {rest : List κ} (h : Visits valid next key it (k :: rest)) :
    valid it = true ∧ key it = k ∧ Visits valid next key (next it) rest := by
  cases h with
  | step hValid tail => exact ⟨hValid, rfl, tail⟩

/-- A walk visits only one list. -/
theorem Visits.unique {valid : ι → Bool} {next : ι → ι} {key : ι → κ} {it : ι} {l l' : List κ}
    (h : Visits valid next key it l) (h' : Visits valid next key it l') : l = l' := by
  induction h generalizing l' with
  | done hEnd =>
      cases h' with
      | done _ => rfl
      | step hValid _ => simp [hEnd] at hValid
  | step hValid _ ih =>
      cases h' with
      | done hEnd => simp [hEnd] at hValid
      | step _ tail => rw [ih tail]

/-- Tests that agree on the iterators met make the same walk. -/
theorem Visits.congr_valid {valid valid' : ι → Bool} {next : ι → ι} {key : ι → κ} {it : ι}
    {l : List κ} (h : Visits valid next key it l) (met : ι → Prop) (hMet : met it)
    (hNext : ∀ i, met i → valid i = true → met (next i))
    (hSame : ∀ i, met i → valid' i = valid i) : Visits valid' next key it l := by
  induction h with
  | done hEnd => exact .done ((hSame _ hMet).trans hEnd)
  | step hValid _ ih => exact .step ((hSame _ hMet).trans hValid) (ih (hNext _ hMet hValid))

/-- Iteration resumed at `found` continues the scan that starts at `first`:
`found` is a valid iterator at an element satisfying `isAt`, and walking from
it yields that element and then exactly the ones the full scan yields after it. -/
def Resumes (valid : ι → Bool) (next : ι → ι) (key : ι → κ) (first found : ι)
    (isAt : κ → Prop) : Prop :=
  valid found = true ∧ isAt (key found) ∧
    ∃ before k after, isAt k ∧ Visits valid next key first (before ++ k :: after) ∧
      Visits valid next key found (k :: after)

/-- A walk from a valid iterator over a tail of the scan resumes the scan. -/
theorem Resumes.of_visits {valid : ι → Bool} {next : ι → ι} {key : ι → κ} {first found : ι}
    {isAt : κ → Prop} {before after : List κ} (hAt : isAt (key found))
    (hFirst : Visits valid next key first (before ++ key found :: after))
    (hFound : Visits valid next key found (key found :: after)) :
    Resumes valid next key first found isAt := by
  refine ⟨?_, hAt, before, key found, after, hAt, hFirst, hFound⟩
  cases hFound with
  | step hValid _ => exact hValid

/-- A walk that repeats an element resumes no scan that repeats none. -/
theorem not_resumes_of_nodup {valid : ι → Bool} {next : ι → ι} {key : ι → κ} {first found : ι}
    {isAt : κ → Prop} {scan walk : List κ} (hFirst : Visits valid next key first scan)
    (hNodup : scan.Nodup) (hFound : Visits valid next key found walk) (hRepeat : ¬ walk.Nodup) :
    ¬ Resumes valid next key first found isAt := by
  rintro ⟨_, _, before, k, after, _, hScan, hWalk⟩
  rw [hFirst.unique hScan] at hNodup
  rw [hFound.unique hWalk] at hRepeat
  exact hRepeat (List.nodup_append.mp hNodup).2.1

section Cells

variable (used : Nat → Bool) (n : Nat)

/-- `while (i < n && !used[i]) i++`, for at most `fuel` rounds. -/
def skipFor : Nat → Nat → Nat
  | 0, i => i
  | fuel + 1, i => if i < n ∧ used i = false then skipFor fuel (i + 1) else i

/-- The loop runs at most `n - i` rounds. -/
def skip (i : Nat) : Nat := skipFor used n (n - i) i

/-- The used cells from `i` on, in ascending order. -/
def usedFrom (i : Nat) : List Nat := (List.range' i (n - i)).filter used

variable {used n}

theorem usedFrom_of_ge {i : Nat} (h : n ≤ i) : usedFrom used n i = [] := by
  simp [usedFrom, Nat.sub_eq_zero_of_le h]

theorem usedFrom_of_used {i : Nat} (hi : i < n) (h : used i = true) :
    usedFrom used n i = i :: usedFrom used n (i + 1) := by
  have hStep : n - i = (n - (i + 1)) + 1 := by omega
  rw [usedFrom, usedFrom, hStep, List.range'_succ, List.filter_cons_of_pos h]

theorem usedFrom_of_unused {i : Nat} (hi : i < n) (h : used i = false) :
    usedFrom used n i = usedFrom used n (i + 1) := by
  have hStep : n - i = (n - (i + 1)) + 1 := by omega
  rw [usedFrom, usedFrom, hStep, List.range'_succ, List.filter_cons_of_neg (by simp [h])]

theorem mem_usedFrom {i p : Nat} : p ∈ usedFrom used n i ↔ i ≤ p ∧ p < n ∧ used p = true := by
  simp only [usedFrom, List.mem_filter, List.mem_range'_1]
  constructor
  · rintro ⟨⟨hLow, hHigh⟩, hUsed⟩
    exact ⟨hLow, by omega, hUsed⟩
  · rintro ⟨hLow, hHigh, hUsed⟩
    exact ⟨⟨hLow, by omega⟩, hUsed⟩

theorem nodup_usedFrom (i : Nat) : (usedFrom used n i).Nodup :=
  (List.nodup_range' ..).filter _

/-- Dropping the cells before a used cell leaves the cells from it on. -/
theorem usedFrom_append {i p : Nat} (hLe : i ≤ p) (hp : p ≤ n) :
    usedFrom used n i = (List.range' i (p - i)).filter used ++ usedFrom used n p := by
  rw [usedFrom, usedFrom, ← List.filter_append]
  congr 1
  rw [show n - i = (p - i) + (n - p) by omega, ← List.range'_append_1]
  congr 2
  omega

private theorem skipFor_spec (fuel i : Nat) (hFuel : n - i ≤ fuel) :
    (skipFor used n fuel i < n → used (skipFor used n fuel i) = true) ∧
      i ≤ skipFor used n fuel i ∧
      usedFrom used n (skipFor used n fuel i) = usedFrom used n i := by
  induction fuel generalizing i with
  | zero => exact ⟨fun h => by simp only [skipFor] at h; omega, Nat.le_refl _, rfl⟩
  | succ fuel ih =>
      rw [skipFor]
      split
      · rename_i hSkip
        obtain ⟨hUsed, hLe, hRest⟩ := ih (i + 1) (by omega)
        exact ⟨hUsed, by omega, hRest.trans (usedFrom_of_unused hSkip.1 hSkip.2).symm⟩
      · rename_i hStop
        exact ⟨fun h => by simpa [h] using hStop, Nat.le_refl _, rfl⟩

/-- The loop stops at a used cell or past the end, and passes no used cell. -/
theorem used_skip (i : Nat) (h : skip used n i < n) : used (skip used n i) = true :=
  (skipFor_spec _ _ (Nat.le_refl _)).1 h

theorem le_skip (i : Nat) : i ≤ skip used n i := (skipFor_spec _ _ (Nat.le_refl _)).2.1

/-- The cells that the loop passes are unused. -/
theorem unused_before_skip {i p : Nat} (hLow : i ≤ p) (hp : p < skip used n i) (hEnd : p < n) :
    used p = false := by
  refine Bool.eq_false_iff.mpr fun hUsed => ?_
  have hMem : p ∈ usedFrom used n i := mem_usedFrom.mpr ⟨hLow, hEnd, hUsed⟩
  rw [← (skipFor_spec _ _ (Nat.le_refl _)).2.2] at hMem
  exact absurd (mem_usedFrom.mp hMem).1 (Nat.not_le.mpr hp)

theorem skip_le {i : Nat} (h : i ≤ n) : skip used n i ≤ n := by
  have hRounds (fuel i : Nat) (h : i ≤ n) : skipFor used n fuel i ≤ n := by
    induction fuel generalizing i with
    | zero => exact h
    | succ fuel ih =>
        rw [skipFor]
        split_ifs with hSkip
        · exact ih _ hSkip.1
        · exact h
  exact hRounds _ i h

theorem usedFrom_skip (i : Nat) : usedFrom used n (skip used n i) = usedFrom used n i :=
  (skipFor_spec _ _ (Nat.le_refl _)).2.2

/-- Advancing past a used cell and skipping the unused ones visits every used
cell from the starting one on, each once. -/
theorem visits_usedFrom (key : Nat → κ) {valid : Nat → Bool} {next : Nat → Nat}
    (hValid : ∀ i, valid i = decide (i < n)) (hNext : ∀ i, next i = skip used n (i + 1))
    {i : Nat} (hi : i < n → used i = true) :
    Visits valid next key i ((usedFrom used n i).map key) := by
  induction hd : n - i using Nat.strong_induction_on generalizing i with
  | _ d ih =>
      by_cases hEnd : i < n
      · rw [usedFrom_of_used hEnd (hi hEnd), List.map_cons]
        refine .step (by simp [hValid, hEnd]) ?_
        rw [hNext, ← usedFrom_skip]
        have hLe : i + 1 ≤ skip used n (i + 1) := (skipFor_spec _ _ (Nat.le_refl _)).2.1
        exact ih _ (by omega) (used_skip (i + 1)) rfl
      · rw [usedFrom_of_ge (by omega)]
        exact .done (by simp [hValid, hEnd])

/-- A scan resumed at a used cell goes on as the scan from the first one. -/
theorem resumes_usedFrom (key : Nat → κ) {valid : Nat → Bool} {next : Nat → Nat}
    (hValid : ∀ i, valid i = decide (i < n)) (hNext : ∀ i, next i = skip used n (i + 1))
    {p : Nat} (hp : p < n) (hUsed : used p = true) {isAt : κ → Prop} (hAt : isAt (key p)) :
    Resumes valid next key (skip used n 0) p isAt := by
  have hFirst := visits_usedFrom key hValid hNext (used_skip 0)
  have hFound := visits_usedFrom key hValid hNext fun _ => hUsed
  rw [usedFrom_skip, usedFrom_append (Nat.zero_le p) hp.le, usedFrom_of_used hp hUsed,
    List.map_append, List.map_cons] at hFirst
  rw [usedFrom_of_used hp hUsed, List.map_cons] at hFound
  exact .of_visits hAt hFirst hFound

end Cells

end Iteration
