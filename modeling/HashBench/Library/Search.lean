import Mathlib.Order.Filter.AtTopBot.Basic
import Mathlib.Data.List.Induction

/-! Unbounded probe loops over an arbitrary sequence of positions. A loop is
given by a stopping test, by the accumulator it carries from one position to
the next, and by a fuel that bounds the number of positions it may inspect.
`none` records that the fuel ran out; it is not a result of the loop. -/
namespace Search

section Returns

open Filter

variable {α γ : Type*}

/-- A computation that is given enough fuel returns this value. -/
def ReturnsTo (f : Nat → Option α) (v : α) : Prop := ∀ᶠ fuel in atTop, f fuel = some v

namespace ReturnsTo

variable {f : Nat → Option α} {v : α}

theorem pure (v : α) : ReturnsTo (fun _ => some v) v := Eventually.of_forall fun _ => rfl

theorem exists_fuel (h : ReturnsTo f v) : ∃ fuel, f fuel = some v := Eventually.exists h

/-- Two computations return under one and the same fuel. -/
theorem exists_both {g : Nat → Option γ} {u : γ} (h : ReturnsTo f v) (h' : ReturnsTo g u) :
    ∃ fuel, f fuel = some v ∧ g fuel = some u := (Eventually.and h h').exists

theorem map (h : ReturnsTo f v) (g : α → γ) : ReturnsTo (fun fuel => (f fuel).map g) (g v) :=
  Eventually.mono h fun fuel (hFuel : f fuel = some v) => by
    dsimp only
    rw [hFuel, Option.map_some]

theorem bind {g : Nat → α → Option γ} {u : γ} (h : ReturnsTo f v)
    (hNext : ReturnsTo (fun fuel => g fuel v) u) :
    ReturnsTo (fun fuel => (f fuel).bind (g fuel)) u :=
  (Eventually.and h hNext).mono fun fuel hFuel => by
    dsimp only
    rw [hFuel.1, Option.bind_some]
    exact hFuel.2

/-- A multiple of the fuel is as good as the fuel. -/
theorem scale (h : ReturnsTo f v) {count : Nat} (hCount : 0 < count) :
    ReturnsTo (fun fuel => f (count * fuel)) v :=
  (tendsto_atTop_mono (fun fuel => Nat.le_mul_of_pos_left fuel hCount) tendsto_id).eventually h

/-- One round more of fuel is as good as the fuel. -/
theorem succ (h : ReturnsTo f v) : ReturnsTo (fun fuel => f (fuel + 1)) v :=
  (tendsto_add_atTop_nat 1).eventually h

/-- Fuel enough for one round less is fuel enough. -/
theorem of_succ (h : ReturnsTo (fun fuel => f (fuel + 1)) v) : ReturnsTo f v := by
  obtain ⟨bound, hBound⟩ := eventually_atTop.mp h
  refine eventually_atTop.mpr ⟨bound + 1, fun fuel hFuel => ?_⟩
  obtain ⟨fuel, rfl⟩ := Nat.exists_eq_add_of_le' (Nat.one_le_of_lt hFuel)
  exact hBound fuel (Nat.le_of_succ_le_succ hFuel)

/-- The value returned is determined. -/
theorem unique {u : α} (h : ReturnsTo f v) (h' : ReturnsTo f u) : v = u := by
  obtain ⟨fuel, hv, hu⟩ := h.exists_both h'
  exact Option.some.inj (hv.symm.trans hu)

/-- A computation that goes on without an exception. -/
theorem andThen {ε : Type*} {α β : Type _} {f : Nat → ExceptT ε Option α}
    {g : Nat → α → ExceptT ε Option β} {a : α} {r : Except ε β}
    (h : ReturnsTo (fun fuel => (f fuel).run) (.ok a))
    (hNext : ReturnsTo (fun fuel => (g fuel a).run) r) :
    ReturnsTo (fun fuel => (f fuel >>= g fuel).run) r :=
  (Eventually.and h hNext).mono fun fuel hFuel => by
    have hFirst : (f fuel).run = some (.ok a) := hFuel.1
    dsimp only
    rw [ExceptT.run_bind, hFirst]
    exact hFuel.2

/-- After a computation that goes on, the result is that of the rest. -/
theorem andThen_iff {ε : Type*} {α β : Type _} {f : Nat → ExceptT ε Option α}
    {g : Nat → α → ExceptT ε Option β} {a : α} {r : Except ε β}
    (h : ReturnsTo (fun fuel => (f fuel).run) (.ok a)) :
    ReturnsTo (fun fuel => (f fuel >>= g fuel).run) r ↔
      ReturnsTo (fun fuel => (g fuel a).run) r := by
  refine ⟨fun h' => (Eventually.and h h').mono fun fuel hFuel => ?_, h.andThen⟩
  have hFirst : (f fuel).run = some (.ok a) := hFuel.1
  have hBoth : (f fuel >>= g fuel).run = some r := hFuel.2
  rwa [ExceptT.run_bind, hFirst] at hBoth

/-- A computation that ends with its exception. -/
theorem raise {ε : Type*} {α β : Type _} {f : Nat → ExceptT ε Option α} {e : ε}
    (h : ReturnsTo (fun fuel => (f fuel).run) (.error e)) (g : Nat → α → ExceptT ε Option β) :
    ReturnsTo (fun fuel => (f fuel >>= g fuel).run) (.error e) :=
  h.mono fun fuel (hFuel : (f fuel).run = some (.error e)) => by
    dsimp only
    rw [ExceptT.run_bind, hFuel]
    rfl

end ReturnsTo

section Lifting

variable {ε : Type*} {α β : Type _}

/-- A computation without loops. -/
def check (x : Except ε α) : ExceptT ε Option α := ExceptT.mk (some x)

/-- A computation without exceptions. -/
def lift (x : Option α) : ExceptT ε Option α := ExceptT.mk (x.map .ok)

@[simp] theorem check_bind (a : α) (f : α → ExceptT ε Option β) : check (.ok a) >>= f = f a := rfl

@[simp] theorem check_map (a : α) (f : α → β) :
    f <$> (check (.ok a) : ExceptT ε Option α) = pure (f a) := rfl

theorem lift_returns {f : Nat → Option α} {v : α} (h : ReturnsTo f v) :
    ReturnsTo (fun fuel => (lift (f fuel) : ExceptT ε Option α).run) (.ok v) := h.map Except.ok

end Lifting

/-- A program returned either with the exception of its first part, or after it. -/
theorem run_bind_eq_some {ε : Type*} {α β : Type _} {x : ExceptT ε Option α}
    {f : α → ExceptT ε Option β} {r : Except ε β} :
    (x >>= f).run = some r ↔ (∃ e, x.run = some (.error e) ∧ r = .error e) ∨
      ∃ a, x.run = some (.ok a) ∧ (f a).run = some r := by
  rw [ExceptT.run_bind]
  cases hRun : x.run with
  | none => simp
  | some result =>
      cases result with
      | ok a => simp
      | error e => simp [eq_comm]

/-- A program that returns, with a value or an exception, given enough fuel. -/
def Returns {ε : Type*} {α : Type _} (f : Nat → ExceptT ε Option α) : Prop :=
  ∃ r, ReturnsTo (fun fuel => (f fuel).run) r

namespace Returns

variable {ε : Type*} {α β : Type _} {f : Nat → ExceptT ε Option α}

/-- A program without loops. -/
theorem mk (x : Except ε α) : Returns fun _ => (ExceptT.mk (some x) : ExceptT ε Option α) :=
  ⟨x, ReturnsTo.pure x⟩

theorem pure (a : α) : Returns fun _ => (Pure.pure a : ExceptT ε Option α) := mk (.ok a)

theorem andThen {g : Nat → α → ExceptT ε Option β} (h : Returns f)
    (hNext : ∀ a, ReturnsTo (fun fuel => (f fuel).run) (.ok a) → Returns fun fuel => g fuel a) :
    Returns fun fuel => f fuel >>= g fuel := by
  obtain ⟨r, hr⟩ := h
  cases r with
  | ok a =>
      obtain ⟨r, hNext⟩ := hNext a hr
      exact ⟨r, hr.andThen hNext⟩
  | error e => exact ⟨_, hr.raise g⟩

/-- Fuel enough for one round less is fuel enough. -/
theorem of_succ (h : Returns fun fuel => f (fuel + 1)) : Returns f := by
  obtain ⟨r, hr⟩ := h
  exact ⟨r, ReturnsTo.of_succ (f := fun fuel => (f fuel).run) hr⟩

end Returns

/-- More fuel does not change a result. -/
def Steady (f : Nat → Option α) : Prop :=
  ∀ (fuel fuel' : Nat) (v : α), fuel ≤ fuel' → f fuel = some v → f fuel' = some v

namespace Steady

variable {f : Nat → Option α} {v : α}

/-- One result is the result. -/
theorem returnsTo (h : Steady f) {fuel : Nat} (hFuel : f fuel = some v) : ReturnsTo f v :=
  (eventually_ge_atTop fuel).mono fun _ hLe => h _ _ _ hLe hFuel

theorem eq_of_returnsTo (h : Steady f) (hReturns : ReturnsTo f v) {fuel : Nat} {u : α}
    (hFuel : f fuel = some u) : u = v :=
  (h.returnsTo hFuel).unique hReturns

theorem ite {c : Prop} [Decidable c] {g : Nat → Option α} (h : Steady f) (h' : Steady g) :
    Steady fun fuel => if c then f fuel else g fuel := by
  split_ifs
  · exact h
  · exact h'

theorem pure (v : Option α) : Steady fun _ => v := fun _ _ _ _ h => h

theorem map (h : Steady f) (g : α → γ) : Steady fun fuel => (f fuel).map g := by
  intro fuel fuel' u hLe hMap
  obtain ⟨v, hv, rfl⟩ := Option.map_eq_some_iff.mp hMap
  exact Option.map_eq_some_iff.mpr ⟨v, h _ _ _ hLe hv, rfl⟩

theorem bind {g : Nat → α → Option γ} (h : Steady f) (hNext : ∀ v, Steady fun fuel => g fuel v) :
    Steady fun fuel => (f fuel).bind (g fuel) := by
  intro fuel fuel' u hLe hBind
  obtain ⟨v, hv, hu⟩ := Option.bind_eq_some_iff.mp hBind
  exact Option.bind_eq_some_iff.mpr ⟨v, h _ _ _ hLe hv, hNext v _ _ _ hLe hu⟩

theorem andThen {ε : Type*} {α β : Type _} {f : Nat → ExceptT ε Option α}
    {g : Nat → α → ExceptT ε Option β} (h : Steady fun fuel => (f fuel).run)
    (hNext : ∀ a, Steady fun fuel => (g fuel a).run) :
    Steady fun fuel => (f fuel >>= g fuel).run := by
  simp only [ExceptT.run_bind]
  refine h.bind (g := fun fuel v => match v with
    | .ok a => (g fuel a).run
    | .error e => some (.error e)) fun v => ?_
  cases v with
  | ok a => exact hNext a
  | error e => exact Steady.pure _

end Steady

end Returns

variable {σ : Type*}

/-- Inspect `seq j`, `seq (j + 1)`, and so on until a position satisfies
`stop`. Every earlier position is handed to `update`. -/
def search (stop : Nat → Bool) (update : Nat → σ → σ) (seq : Nat → Nat) :
    Nat → Nat → σ → Option (Nat × σ)
  | 0, _, _ => none
  | fuel + 1, j, acc =>
      if stop (seq j) then some (j, acc)
      else search stop update seq fuel (j + 1) (update (seq j) acc)

/-- The accumulator after the first `count` positions of `seq`. -/
def trail (update : Nat → σ → σ) (seq : Nat → Nat) : Nat → σ → σ
  | 0, acc => acc
  | count + 1, acc => update (seq count) (trail update seq count acc)

private theorem trail_cons (update : Nat → σ → σ) (seq : Nat → Nat) (count : Nat) (acc : σ) :
    trail update (fun i => seq (i + 1)) count (update (seq 0) acc) =
      trail update seq (count + 1) acc := by
  induction count with
  | zero => rfl
  | succ count ih => simp only [trail, ih]

private theorem search_shift (stop : Nat → Bool) (update : Nat → σ → σ) (seq : Nat → Nat)
    (fuel j : Nat) (acc : σ) :
    search stop update seq fuel (j + 1) acc =
      (search stop update (fun i => seq (i + 1)) fuel j acc).map
        (fun found => (found.1 + 1, found.2)) := by
  induction fuel generalizing j acc with
  | zero => rfl
  | succ fuel ih =>
      simp only [search]
      by_cases h : stop (seq (j + 1))
      · simp [h]
      · simp only [h, Bool.false_eq_true, ↓reduceIte]
        exact ih (j + 1) _

/-- The loop stops at the first stopping position, once the fuel reaches it. -/
theorem search_first {stop : Nat → Bool} {seq : Nat → Nat} {m : Nat}
    (hBefore : ∀ i < m, stop (seq i) = false) (hStop : stop (seq m) = true)
    (update : Nat → σ → σ) (acc : σ) {fuel : Nat} (hFuel : m < fuel) :
    search stop update seq fuel 0 acc = some (m, trail update seq m acc) := by
  induction m generalizing seq acc fuel with
  | zero =>
      obtain ⟨fuel, rfl⟩ := Nat.exists_eq_add_one.mpr hFuel
      simp [search, hStop, trail]
  | succ m ih =>
      obtain ⟨fuel, rfl⟩ := Nat.exists_eq_add_one.mpr (Nat.zero_lt_of_lt hFuel)
      have hTail : search stop update (fun i => seq (i + 1)) fuel 0 (update (seq 0) acc) =
          some (m, trail update (fun i => seq (i + 1)) m (update (seq 0) acc)) :=
        ih (fun i hi => hBefore (i + 1) (Nat.succ_lt_succ hi)) hStop (update (seq 0) acc)
          (Nat.lt_of_succ_lt_succ hFuel)
      rw [search, hBefore 0 (Nat.succ_pos m), if_neg Bool.false_ne_true, search_shift, hTail,
        trail_cons]
      rfl

/-- A loop that never meets a stopping position never returns. -/
theorem search_diverges {stop : Nat → Bool} {seq : Nat → Nat}
    (hNever : ∀ i, stop (seq i) = false) (update : Nat → σ → σ) (fuel j : Nat) (acc : σ) :
    search stop update seq fuel j acc = none := by
  induction fuel generalizing j acc with
  | zero => rfl
  | succ fuel ih => rw [search, hNever j, if_neg Bool.false_ne_true, ih]

/-- A loop that returned did so at the first stopping position. -/
theorem search_eq_some {stop : Nat → Bool} {update : Nat → σ → σ} {seq : Nat → Nat}
    {fuel m : Nat} {acc result : σ}
    (h : search stop update seq fuel 0 acc = some (m, result)) :
    m < fuel ∧ (∀ i < m, stop (seq i) = false) ∧ stop (seq m) = true ∧
      result = trail update seq m acc := by
  by_cases hExists : ∃ i, stop (seq i) = true
  · classical
    let first := Nat.find hExists
    have hBefore : ∀ i < first, stop (seq i) = false := fun i hi => by
      simpa using Nat.find_min hExists hi
    have hStop : stop (seq first) = true := Nat.find_spec hExists
    by_cases hFuel : first < fuel
    · rw [search_first hBefore hStop update acc hFuel, Option.some.injEq, Prod.mk.injEq] at h
      obtain ⟨rfl, rfl⟩ := h
      exact ⟨hFuel, hBefore, hStop, rfl⟩
    · have hShort : ∀ (fuel j : Nat) (acc : σ), j + fuel ≤ first →
          search stop update seq fuel j acc = none := by
        intro fuel
        induction fuel with
        | zero => intros; rfl
        | succ fuel ih =>
            intro j acc hj
            rw [search, hBefore j (by omega), if_neg Bool.false_ne_true]
            exact ih _ _ (by omega)
      rw [hShort fuel 0 acc (by omega)] at h
      cases h
  · have hNever : ∀ i, stop (seq i) = false := fun i => by
      simpa using fun hi => hExists ⟨i, hi⟩
    rw [search_diverges hNever] at h
    cases h

theorem steady_search (stop : Nat → Bool) (update : Nat → σ → σ) (seq : Nat → Nat) (acc : σ) :
    Steady fun fuel => search stop update seq fuel 0 acc := by
  intro fuel fuel' found hLe hFound
  obtain ⟨m, result⟩ := found
  obtain ⟨hFuel, hBefore, hStop, rfl⟩ := search_eq_some hFound
  exact search_first hBefore hStop update acc (hFuel.trans_le hLe)

/-- With enough fuel the loop returns the first stopping position. -/
theorem search_returnsTo {stop : Nat → Bool} {seq : Nat → Nat} {m : Nat}
    (hBefore : ∀ i < m, stop (seq i) = false) (hStop : stop (seq m) = true)
    (update : Nat → σ → σ) (acc : σ) :
    ReturnsTo (fun fuel => search stop update seq fuel 0 acc) (m, trail update seq m acc) :=
  (Filter.eventually_gt_atTop m).mono fun _ hFuel => search_first hBefore hStop update acc hFuel

/-- A loop with a stopping position ahead returns. -/
theorem search_returns (stop : Nat → Bool) (seq : Nat → Nat) (h : ∃ j, stop (seq j) = true)
    (update : Nat → σ → σ) (acc : σ) :
    ∃ found, ReturnsTo (fun fuel => search stop update seq fuel 0 acc) found := by
  classical
  have hBefore : ∀ i < Nat.find h, stop (seq i) = false := fun i hi => by
    simpa using Nat.find_min h hi
  exact ⟨_, search_returnsTo hBefore (Nat.find_spec h) update acc⟩

section FirstMarked

variable (mark : Nat → Bool)

/-- Keep the first marked position among those inspected. -/
def noteFirst (p : Nat) (noted : Option Nat) : Option Nat :=
  if noted = none ∧ mark p = true then some p else noted

/-- Nothing is noted exactly when no inspected position was marked. -/
theorem trail_noteFirst_eq_none {seq : Nat → Nat} {m : Nat} :
    trail (noteFirst mark) seq m none = none ↔ ∀ i < m, mark (seq i) = false := by
  induction m with
  | zero => simp [trail]
  | succ m ih =>
      rw [trail, noteFirst]
      constructor
      · intro h i hi
        split at h
        · cases h
        · rename_i hNot
          have hTrail := ih.mp h
          rcases Nat.lt_succ_iff_lt_or_eq.mp hi with hLt | rfl
          · exact hTrail i hLt
          · simpa [h] using hNot
      · intro h
        have hTrail := ih.mpr (fun i hi => h i (Nat.lt_succ_of_lt hi))
        simp [hTrail, h m (Nat.lt_succ_self m)]

/-- A noted position is the first marked one. -/
theorem trail_noteFirst_eq_some {seq : Nat → Nat} {m p : Nat}
    (h : trail (noteFirst mark) seq m none = some p) :
    ∃ i < m, seq i = p ∧ mark p = true ∧ ∀ l < i, mark (seq l) = false := by
  induction m with
  | zero => simp [trail] at h
  | succ m ih =>
      rw [trail, noteFirst] at h
      split at h
      · rename_i hFirst
        obtain rfl : seq m = p := by simpa using h
        exact ⟨m, Nat.lt_succ_self m, rfl, hFirst.2, (trail_noteFirst_eq_none mark).mp hFirst.1⟩
      · obtain ⟨i, hi, hp⟩ := ih h
        exact ⟨i, Nat.lt_succ_of_lt hi, hp⟩

end FirstMarked

end Search
