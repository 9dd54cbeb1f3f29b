import Mathlib.Data.List.Basic

/-! Programs that change a state and may fault, and what they guarantee: from
the states of a precondition the program returns, without a fault, and meets
its postcondition. -/
namespace HashBench.Contract

universe u

variable {σ α β : Type u} {ε ι : Type*}

/-- From every state in `pre` the program returns, in a state in `post`. -/
def Meets (pre : σ → Prop) (prog : StateT σ (Except ε) α) (post : α → σ → Prop) : Prop :=
  ∀ s, pre s → ∃ a s', prog.run s = .ok (a, s') ∧ post a s'

/-- Where the first of two programs in sequence returns, the second goes on. -/
theorem run_bind_of_ok {prog : StateT σ (Except ε) α} {next : α → StateT σ (Except ε) β} {s s' : σ}
    {a : α} (h : prog.run s = .ok (a, s')) : (prog >>= next).run s = (next a).run s' := by
  rw [StateT.run_bind, h]
  rfl

/-- Where the first of two programs in sequence faults, so does the sequence. -/
theorem run_bind_of_error {prog : StateT σ (Except ε) α} {next : α → StateT σ (Except ε) β} {s : σ}
    {e : ε} (h : prog.run s = .error e) : (prog >>= next).run s = .error e := by
  rw [StateT.run_bind, h]
  rfl

/-- A loop that faults in its first step. -/
theorem run_forM_of_error {body : ι → StateT σ (Except ε) PUnit} {x : ι} {xs : List ι} {s : σ}
    {e : ε} (h : (body x).run s = .error e) : ((x :: xs).forM body).run s = .error e :=
  run_bind_of_error h

namespace Meets

variable {pre pre' mid : σ → Prop} {prog : StateT σ (Except ε) α} {post post' : α → σ → Prop}

theorem ret {a : α} (h : ∀ s, pre s → post a s) : Meets pre (pure a : StateT σ (Except ε) α) post :=
  fun s hs => ⟨a, s, rfl, h s hs⟩

theorem weaken (h : Meets pre prog post) (hPre : ∀ s, pre' s → pre s)
    (hPost : ∀ a s, post a s → post' a s) : Meets pre' prog post' := by
  intro s hs
  obtain ⟨a, s', hRun, ha⟩ := h s (hPre s hs)
  exact ⟨a, s', hRun, hPost a s' ha⟩

theorem of_pre (h : Meets pre prog post) (hPre : ∀ s, pre' s → pre s) : Meets pre' prog post :=
  h.weaken hPre fun _ _ => id

theorem bind {next : α → StateT σ (Except ε) β} {last : β → σ → Prop} (h : Meets pre prog post)
    (hNext : ∀ a, Meets (post a) (next a) last) : Meets pre (prog >>= next) last := by
  intro s hs
  obtain ⟨a, s', hRun, ha⟩ := h s hs
  obtain ⟨b, s'', hRun', hb⟩ := hNext a s' ha
  exact ⟨b, s'', (run_bind_of_ok hRun).trans hRun', hb⟩

/-- Two programs in sequence, of which the first returns nothing. -/
theorem seq {first : StateT σ (Except ε) PUnit} {next : StateT σ (Except ε) β}
    {last : β → σ → Prop} (h : Meets pre first fun _ => mid) (hNext : Meets mid next last) :
    Meets pre (first >>= fun _ => next) last :=
  h.bind fun _ => hNext

theorem update {f : σ → σ} {post : σ → Prop} (h : ∀ s, pre s → post (f s)) :
    Meets pre (modify f : StateT σ (Except ε) PUnit) fun _ => post :=
  fun s hs => ⟨⟨⟩, f s, rfl, h s hs⟩

/-- A program that begins by reading the state. -/
theorem read {next : σ → StateT σ (Except ε) β} {last : β → σ → Prop}
    (h : ∀ s, pre s → Meets (· = s) (next s) last) :
    Meets pre ((get : StateT σ (Except ε) σ) >>= next) last := by
  intro s hs
  exact h s hs s rfl

/-- A fact that does not depend on the state may be assumed. -/
theorem assume {P : Prop} (h : P → Meets pre prog post) : Meets (fun s => P ∧ pre s) prog post :=
  fun s hs => h hs.1 s hs.2

/-- A loop over a list keeps an invariant that says what is left to do. -/
theorem forM (inv : List ι → σ → Prop) {body : ι → StateT σ (Except ε) PUnit} {xs : List ι}
    (h : ∀ x rest, x ∈ xs → Meets (inv (x :: rest)) (body x) fun _ => inv rest) :
    Meets (inv xs) (xs.forM body) fun _ => inv [] := by
  induction xs with
  | nil => exact ret fun _ => id
  | cons x xs ih =>
      exact (h x xs List.mem_cons_self).seq
        (ih fun y rest hy => h y rest (List.mem_cons_of_mem x hy))

/-- Programs are deterministic, so two contracts of one program hold together. -/
theorem and {pre₁ pre₂ : σ → Prop} {post₁ post₂ : α → σ → Prop} (h₁ : Meets pre₁ prog post₁)
    (h₂ : Meets pre₂ prog post₂) :
    Meets (fun s => pre₁ s ∧ pre₂ s) prog fun a s => post₁ a s ∧ post₂ a s := by
  intro s hs
  obtain ⟨a, s', hRun, ha⟩ := h₁ s hs.1
  obtain ⟨b, s'', hRun', hb⟩ := h₂ s hs.2
  rw [hRun] at hRun'
  cases hRun'
  exact ⟨a, s', hRun, ha, hb⟩

/-- A loop over an initial segment, with `inv i` before step `i`. -/
theorem forM_range (inv : Nat → σ → Prop) {body : Nat → StateT σ (Except ε) PUnit} {n : Nat}
    (h : ∀ i < n, Meets (inv i) (body i) fun _ => inv (i + 1)) :
    Meets (inv 0) ((List.range n).forM body) fun _ => inv n := by
  induction n with
  | zero => exact ret fun _ => id
  | succ n ih =>
      rw [List.range_succ, List.forM_eq_forM, List.forM_append]
      refine (ih fun i hi => h i (Nat.lt_succ_of_lt hi)).seq ?_
      simpa using h n n.lt_succ_self

end Meets

section Emits

variable {ω : Type*}

/-- Where the program returns, it has added exactly this to what is observed. -/
def Emits (obs : σ → List ω) (prog : StateT σ (Except ε) α) (out : List ω) : Prop :=
  ∀ s a s', prog.run s = .ok (a, s') → obs s' = obs s ++ out

namespace Emits

variable {obs : σ → List ω} {prog : StateT σ (Except ε) α} {out out' : List ω}

theorem ret (a : α) : Emits obs (pure a : StateT σ (Except ε) α) [] := by
  intro s a s' hRun
  cases hRun
  exact (List.append_nil _).symm

theorem fault (e : ε) : Emits obs (throw e : StateT σ (Except ε) α) out := by
  intro s a s' hRun
  cases hRun

theorem update {f : σ → σ} (h : ∀ s, obs (f s) = obs s ++ out) :
    Emits obs (modify f : StateT σ (Except ε) PUnit) out := by
  intro s a s' hRun
  cases hRun
  exact h s

theorem ite {c : Prop} [Decidable c] {prog' : StateT σ (Except ε) α} (h : Emits obs prog out)
    (h' : Emits obs prog' out) : Emits obs (if c then prog else prog') out := by
  split
  · exact h
  · exact h'

theorem bind {next : α → StateT σ (Except ε) β} (h : Emits obs prog out)
    (hNext : ∀ a, Emits obs (next a) out') : Emits obs (prog >>= next) (out ++ out') := by
  intro s b s' hRun
  cases hFirst : prog.run s with
  | error e =>
      rw [StateT.run_bind, hFirst] at hRun
      cases hRun
  | ok r =>
      rw [run_bind_of_ok hFirst] at hRun
      rw [hNext r.1 r.2 b s' hRun, h s r.1 r.2 hFirst, List.append_assoc]

/-- Of two programs in sequence only the second adds something. -/
theorem after {next : α → StateT σ (Except ε) β} (h : Emits obs prog [])
    (hNext : ∀ a, Emits obs (next a) out) : Emits obs (prog >>= next) out :=
  h.bind hNext

/-- Of two programs in sequence only the first adds something. -/
theorem before {next : α → StateT σ (Except ε) β} (h : Emits obs prog out)
    (hNext : ∀ a, Emits obs (next a) []) : Emits obs (prog >>= next) out := by
  simpa using h.bind hNext

theorem forM {body : ι → StateT σ (Except ε) PUnit} {each : ι → List ω} {xs : List ι}
    (h : ∀ x ∈ xs, Emits obs (body x) (each x)) :
    Emits obs (xs.forM body) (xs.flatMap each) := by
  induction xs with
  | nil => exact ret _
  | cons x xs ih =>
      exact (h x List.mem_cons_self).bind fun _ => ih fun y hy => h y (List.mem_cons_of_mem x hy)

theorem forM_nil {body : ι → StateT σ (Except ε) PUnit} (h : ∀ x, Emits obs (body x) [])
    (xs : List ι) : Emits obs (xs.forM body) [] := by
  have hNone : xs.flatMap (fun _ => ([] : List ω)) = [] :=
    List.flatMap_eq_nil_iff.mpr fun _ _ => rfl
  exact hNone ▸ forM fun x _ => h x

end Emits

end Emits

section Simulates

variable {τ : Type u}

/-- Seen through `f`, one program does on every state what the other does. -/
def Simulates (f : σ → τ) (prog : StateT σ (Except ε) α) (prog' : StateT τ (Except ε) α) : Prop :=
  ∀ s, (prog.run s).map (Prod.map id f) = prog'.run (f s)

namespace Simulates

variable {f : σ → τ} {prog : StateT σ (Except ε) α} {prog' : StateT τ (Except ε) α}

theorem ret (a : α) : Simulates f (pure a : StateT σ (Except ε) α) (pure a) := fun _ => rfl

theorem update {u : σ → σ} {v : τ → τ} (h : ∀ s, f (u s) = v (f s)) :
    Simulates f (modify u : StateT σ (Except ε) PUnit) (modify v) :=
  fun s => congrArg (fun s' => Except.ok (PUnit.unit, s')) (h s)

theorem fault (e : ε) : Simulates f (throw e : StateT σ (Except ε) α) (throw e) := fun _ => rfl

theorem ite {c : Prop} [Decidable c] {prog₁ prog₂ : StateT σ (Except ε) α}
    {prog₁' prog₂' : StateT τ (Except ε) α} (h₁ : Simulates f prog₁ prog₁')
    (h₂ : Simulates f prog₂ prog₂') :
    Simulates f (if c then prog₁ else prog₂) (if c then prog₁' else prog₂') := by
  split
  · exact h₁
  · exact h₂

theorem bind {next : α → StateT σ (Except ε) β} {next' : α → StateT τ (Except ε) β}
    (h : Simulates f prog prog') (hNext : ∀ a, Simulates f (next a) (next' a)) :
    Simulates f (prog >>= next) (prog' >>= next') := by
  intro s
  rw [StateT.run_bind, StateT.run_bind, ← h s]
  cases prog.run s with
  | error e => rfl
  | ok r => exact hNext r.1 r.2

theorem forM {body : ι → StateT σ (Except ε) PUnit} {body' : ι → StateT τ (Except ε) PUnit}
    (h : ∀ x, Simulates f (body x) (body' x)) (xs : List ι) :
    Simulates f (xs.forM body) (xs.forM body') := by
  induction xs with
  | nil => exact ret _
  | cons x xs ih => exact (h x).bind fun _ => ih

/-- A run that returns is a run of the simulated program. -/
theorem run_eq (h : Simulates f prog prog') {s : σ} {a : α} {s' : σ}
    (hRun : prog.run s = .ok (a, s')) : prog'.run (f s) = .ok (a, f s') := by
  rw [← h s, hRun]
  rfl

end Simulates

end Simulates

end HashBench.Contract
