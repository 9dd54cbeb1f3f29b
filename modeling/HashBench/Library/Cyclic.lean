import HashBench.Library.Iteration
import Mathlib.Data.Int.CardIntervalMod

/-! Walks around a circle: over the residues of a modulus, and over the
elements of an iteration that starts again where it ends. -/
namespace Cyclic

open Iteration

/-- The first `n` cells of a walk around `m` cells, from `l` on. -/
def around (m n l : Nat) : List Nat := (List.range n).map fun k => (l + k) % m

variable {m n l : Nat}

theorem around_succ (m n l : Nat) : around m (n + 1) l = l % m :: around m n (l + 1) := by
  simp only [around, List.range_succ_eq_map, List.map_cons, List.map_map, Nat.add_zero]
  congr 1
  refine List.map_congr_left fun k _ => ?_
  rw [Function.comp, Nat.add_assoc, Nat.add_comm 1 k]

theorem around_mod (m n l : Nat) : around m n (l % m) = around m n l :=
  List.map_congr_left fun k _ => Nat.mod_add_mod l m k

theorem lt_of_mem_around (hm : 0 < m) {a : Nat} (h : a ∈ around m n l) : a < m := by
  obtain ⟨k, _, rfl⟩ := List.mem_map.mp h
  exact Nat.mod_lt _ hm

/-- Steps less than a lap apart are at different cells. -/
theorem eq_of_step {j k : Nat} (hj : j < m) (hk : k < m) (h : (l + j) % m = (l + k) % m) :
    j = k :=
  (Nat.ModEq.add_left_cancel' l h).eq_of_lt_of_lt hj hk

theorem nodup_around (h : n ≤ m) : (around m n l).Nodup := by
  refine List.Nodup.map_on (fun j hj k hk => eq_of_step ?_ ?_) List.nodup_range
  · exact (List.mem_range.mp hj).trans_le h
  · exact (List.mem_range.mp hk).trans_le h

/-- A step comes to a new cell exactly in the first lap. -/
theorem mem_around_iff (hm : 0 < m) : (l + n) % m ∈ around m n l ↔ m ≤ n := by
  constructor
  · intro hMem
    by_contra hLt
    obtain ⟨k, hk, hEq⟩ := List.mem_map.mp hMem
    have hLess := List.mem_range.mp hk
    exact hLess.ne (eq_of_step (by omega) (by omega) hEq)
  · intro hLe
    refine List.mem_map.mpr ⟨n - m, List.mem_range.mpr (by omega), ?_⟩
    rw [show l + n = l + (n - m) + m by omega, Nat.add_mod_right]

/-- The steps at a cell are those of one residue class. -/
theorem step_eq_iff {a k : Nat} (ha : a < m) :
    (l + k) % m = a ↔ k ≡ a + (m - l % m) [MOD m] := by
  have hl : l % m < m := Nat.mod_lt l (a.zero_le.trans_lt ha)
  have hSum : l + (a + (m - l % m)) = a + m * (l / m + 1) := by
    have hDiv := Nat.div_add_mod l m
    rw [Nat.mul_add, Nat.mul_one]
    omega
  have hShift : (l + (a + (m - l % m))) % m = a := by
    rw [hSum, Nat.add_mul_mod_self_left, Nat.mod_eq_of_lt ha]
  constructor
  · intro hEq
    exact Nat.ModEq.add_left_cancel' l (hEq.trans hShift.symm)
  · intro hEq
    exact Eq.trans (Nat.ModEq.add_left l hEq) hShift

/-- A walk comes to every cell once a lap, and to some once more. -/
theorem count_around (n l : Nat) {a : Nat} (ha : a < m) :
    (around m n l).count a = n / m ∨
      (around m n l).count a = n / m + 1 ∧ n % m ≠ 0 := by
  have hm : 0 < m := a.zero_le.trans_lt ha
  have hCount : (around m n l).count a = n.count (· ≡ a + (m - l % m) [MOD m]) := by
    rw [around, List.count, List.countP_map, Nat.count]
    refine List.countP_congr fun k _ => ?_
    simp [step_eq_iff ha]
  rw [hCount, Nat.count_modEq_card n hm]
  split_ifs with hMore
  · exact Or.inr ⟨rfl, by omega⟩
  · exact Or.inl (Nat.add_zero _)

/-- A cell is met either `⌊n / m⌋` or `⌈n / m⌉` times. -/
theorem count_around_floor_or_ceil (n l : Nat) {a : Nat} (ha : a < m) :
    (around m n l).count a = n / m ∨ (around m n l).count a = (n + m - 1) / m := by
  have hm : 0 < m := a.zero_le.trans_lt ha
  rcases count_around n l ha with hFloor | ⟨hCeil, hRest⟩
  · exact Or.inl hFloor
  · refine Or.inr (hCeil.trans ?_)
    have hDiv := Nat.div_add_mod n m
    have hLt := Nat.mod_lt n hm
    rw [eq_comm, Nat.div_eq_iff hm]
    rw [Nat.add_mul, Nat.mul_comm (n / m) m]
    omega

section Circuit

variable {κ : Type*} {order : List κ} {p : Nat}

/-- The first `n` elements of a walk around a list, from position `p` on. -/
def circuit (order : List κ) (n p : Nat) : List κ :=
  (around order.length n p).filterMap fun q => order[q]?

theorem circuit_succ (hp : p < order.length) (n : Nat) :
    circuit order (n + 1) p = order[p] :: circuit order n ((p + 1) % order.length) := by
  rw [circuit, around_succ, Nat.mod_eq_of_lt hp,
    List.filterMap_cons_some (List.getElem?_eq_getElem hp), circuit, around_mod]

theorem circuit_map {μ : Type*} (f : κ → μ) (order : List κ) (n p : Nat) :
    circuit (order.map f) n p = (circuit order n p).map f := by
  simp only [circuit, List.length_map, List.getElem?_map, List.map_filterMap]

theorem mem_of_mem_circuit {n : Nat} {k : κ} (h : k ∈ circuit order n p) : k ∈ order := by
  obtain ⟨q, _, hq⟩ := List.mem_filterMap.mp h
  exact List.mem_of_getElem? hq

theorem length_circuit (hp : p < order.length) (n : Nat) : (circuit order n p).length = n := by
  induction n generalizing p with
  | zero => rfl
  | succ n ih => rw [circuit_succ hp, List.length_cons, ih (Nat.mod_lt _ (p.zero_le.trans_lt hp))]

/-- A lap or less meets no element twice. -/
theorem nodup_circuit (hNodup : order.Nodup) {n : Nat} (hn : n ≤ order.length) (p : Nat) :
    (circuit order n p).Nodup := by
  refine List.Nodup.filterMap (fun q q' k hq hq' => ?_) (nodup_around hn)
  obtain ⟨hLt, _⟩ := List.getElem?_eq_some_iff.mp hq
  exact (List.getElem?_inj hLt hNodup).mp (Eq.trans hq (Eq.symm hq'))

/-- Every element is met `⌊n / m⌋` or `⌈n / m⌉` times in `n` steps over `m`. -/
theorem count_circuit [DecidableEq κ] (hNodup : order.Nodup) (n p : Nat) {k : κ}
    (hk : k ∈ order) :
    (circuit order n p).count k = n / order.length ∨
      (circuit order n p).count k = (n + order.length - 1) / order.length := by
  obtain ⟨a, ha, rfl⟩ := List.getElem_of_mem hk
  have hCount : (circuit order n p).count order[a] = (around order.length n p).count a := by
    rw [circuit, List.count, List.countP_filterMap, List.count]
    refine List.countP_congr fun q hq => ?_
    have hLt := lt_of_mem_around (a.zero_le.trans_lt ha) hq
    have hIff := List.getElem?_inj (j := a) hLt hNodup
    rw [List.getElem?_eq_getElem hLt, List.getElem?_eq_getElem ha, Option.some_inj] at hIff
    simp [List.getElem?_eq_getElem hLt, hIff]
  rw [hCount]
  exact count_around_floor_or_ceil n p ha

end Circuit

section Laps

variable {ι κ : Type*} {valid : ι → Bool} {next : ι → ι} {key : ι → κ} {first it : ι}
  {order : List κ} {p : Nat}

/-- The next iterator, or the first one where there is none. -/
def advance (valid : ι → Bool) (next : ι → ι) (first it : ι) : ι :=
  if valid (next it) then next it else first

/-- The first `n` iterators from `it` on. -/
def laps (valid : ι → Bool) (next : ι → ι) (first : ι) : Nat → ι → List ι
  | 0, _ => []
  | n + 1, it => it :: laps valid next first n (advance valid next first it)

/-- An iterator at an element of the scan is valid and reads that element. -/
theorem read_at (hp : p < order.length) (h : Visits valid next key it (order.drop p)) :
    valid it = true ∧ key it = order[p] ∧ Visits valid next key (next it) (order.drop (p + 1)) := by
  rw [List.drop_eq_getElem_cons hp] at h
  exact h.uncons

/-- Advancing goes to the next element, and from the last one to the first. -/
theorem visits_advance (hFirst : Visits valid next key first order) (hp : p < order.length)
    (h : Visits valid next key it (order.drop p)) :
    Visits valid next key (advance valid next first it) (order.drop ((p + 1) % order.length)) := by
  obtain ⟨_, _, hTail⟩ := read_at hp h
  unfold advance
  rcases Nat.lt_or_eq_of_le (Nat.succ_le_of_lt hp) with hMore | hLast
  · rw [if_pos (read_at hMore hTail).1, Nat.mod_eq_of_lt hMore]
    exact hTail
  · have hEnd : valid (next it) = false := by
      rw [← Nat.succ_eq_add_one, hLast, List.drop_length] at hTail
      cases hTail with
      | done hEnd => exact hEnd
    rw [hEnd, if_neg Bool.false_ne_true, ← Nat.succ_eq_add_one, hLast, Nat.mod_self, List.drop_zero]
    exact hFirst

/-- A walk from an element on goes through valid iterators around the elements
of the scan. -/
theorem laps_circuit (hFirst : Visits valid next key first order) (hp : p < order.length)
    (h : Visits valid next key it (order.drop p)) (n : Nat) :
    (∀ itr ∈ laps valid next first n it, valid itr = true) ∧
      (laps valid next first n it).map key = circuit order n p := by
  induction n generalizing it p with
  | zero => exact ⟨fun itr hItr => absurd hItr List.not_mem_nil, rfl⟩
  | succ n ih =>
      obtain ⟨hValid, hKey, _⟩ := read_at hp h
      obtain ⟨hRest, hKeys⟩ :=
        ih (Nat.mod_lt _ (p.zero_le.trans_lt hp)) (visits_advance hFirst hp h)
      constructor
      · intro itr hItr
        rcases List.mem_cons.mp hItr with rfl | hMem
        · exact hValid
        · exact hRest itr hMem
      · rw [laps, List.map_cons, hKeys, circuit_succ hp, hKey]

end Laps

end Cyclic
