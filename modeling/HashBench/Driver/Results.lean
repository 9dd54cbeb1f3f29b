import HashBench.Driver.Timeline

/-! Where the results of the driver go. A run on one shim and blueprint writes
each of its results into a flat vector, which has room for all runs. -/
namespace HashBench.Driver

open Contract

namespace Macros

variable (config : Macros)

theorem flatIndex_div (run : Nat) {r : Nat} (hr : r < config.resultCount) :
    config.flatIndex run r / config.resultCount = run := by
  rw [flatIndex, Nat.add_comm, Nat.add_mul_div_right _ _ config.resultCount_pos,
    Nat.div_eq_of_lt hr, Nat.zero_add]

theorem flatIndex_inj {run run' r r' : Nat} (hr : r < config.resultCount)
    (hr' : r' < config.resultCount) (h : config.flatIndex run r = config.flatIndex run' r') :
    run = run' ∧ r = r' := by
  have hRun : run = run' := by
    rw [← config.flatIndex_div run hr, h, config.flatIndex_div run' hr']
  subst hRun
  exact ⟨rfl, Nat.add_left_cancel h⟩

theorem keysAt_inj {r r' : Nat} (h : config.keysAt r = config.keysAt r') : r = r' :=
  Nat.succ_injective (Nat.eq_of_mul_eq_mul_right config.interval_pos h)

end Macros

/-- An assignment: its benchmark, its position, and the number of keys inserted. -/
abbrev Assignment := BenchmarkId × Nat × Nat

def Mark.assignment : Mark → Option Assignment
  | .assigned benchmark index i => some (benchmark, index, i)
  | _ => none

/-- The assignments that a log records. -/
def assigned {T : Type} (log : List (Event T)) : List Assignment :=
  (log.map Event.mark).filterMap Mark.assignment

namespace Macros

variable (config : Macros) (run : Nat)

/-- The assignments of a run on one shim and blueprint, in their order. -/
def assignments : List Assignment :=
  ((ownBlock.filter config.enabled).flatMap fun benchmark =>
      (List.range config.resultCount).map fun r =>
        (benchmark, config.flatIndex run r, config.keysAt r)) ++
    (List.range config.resultCount).flatMap fun r =>
      (sharedBlock.filter config.enabled).map fun benchmark =>
        (benchmark, config.flatIndex run r, config.keysAt r)

theorem assignments_timedMarks (benchmark : BenchmarkId) (r : Nat) :
    (config.timedMarks run benchmark r).filterMap Mark.assignment =
      [(benchmark, config.flatIndex run r, config.keysAt r)] := by
  have hSearches (n : Nat) :
      (List.replicate n (Mark.found benchmark)).filterMap Mark.assignment = [] := by
    simp [Mark.assignment]
  rw [timedMarks, List.filterMap_cons_none rfl, List.filterMap_append, hSearches]
  rfl

theorem assignments_ownMarks (benchmark : BenchmarkId) :
    (config.ownMarks run benchmark).filterMap Mark.assignment =
      (List.range config.resultCount).map fun r =>
        (benchmark, config.flatIndex run r, config.keysAt r) := by
  rw [List.map_eq_flatMap]
  cases benchmark with
  | eraseExisting =>
      rw [ownMarks, List.filterMap_flatMap]
      simp only [List.filterMap_append, assignments_timedMarks]
      rfl
  | _ =>
      rw [ownMarks, List.filterMap_cons_none rfl, List.filterMap_flatMap]
      · rfl
      · exact nofun

/-- The assignments among the records of a run. -/
theorem assignments_timeline :
    (config.timeline run).filterMap Mark.assignment = config.assignments run := by
  rw [timeline, sharedMarks, assignments, List.filterMap_append, List.filterMap_flatMap,
    List.filterMap_flatMap]
  simp only [assignments_ownMarks, List.filterMap_flatMap, assignments_timedMarks,
    List.map_eq_flatMap]

/-- Each enabled benchmark and each measurement has one assignment. -/
theorem mem_assignments {benchmark : BenchmarkId} {index i : Nat} :
    (benchmark, index, i) ∈ config.assignments run ↔ config.enabled benchmark = true ∧
      ∃ r < config.resultCount, index = config.flatIndex run r ∧ i = config.keysAt r := by
  have hBlock : benchmark ∈ ownBlock ∨ benchmark ∈ sharedBlock := by
    cases benchmark <;> decide
  simp only [assignments, List.mem_append, List.mem_flatMap, List.mem_map, List.mem_filter,
    List.mem_range, Prod.mk.injEq]
  constructor
  · rintro (⟨_, ⟨_, hEnabled⟩, r, hr, rfl, rfl, rfl⟩ | ⟨r, hr, _, ⟨_, hEnabled⟩, rfl, rfl, rfl⟩)
    · exact ⟨hEnabled, r, hr, rfl, rfl⟩
    · exact ⟨hEnabled, r, hr, rfl, rfl⟩
  · rintro ⟨hEnabled, r, hr, rfl, rfl⟩
    rcases hBlock with hOwn | hShared
    · exact Or.inl ⟨_, ⟨hOwn, hEnabled⟩, r, hr, rfl, rfl, rfl⟩
    · exact Or.inr ⟨r, hr, _, ⟨hShared, hEnabled⟩, rfl, rfl, rfl⟩

end Macros

/-- Lists whose elements tell which list they are in have no repetition in common. -/
theorem nodup_flatMap_of_index {α β : Type} {each : α → List β} (index : β → α) {xs : List α}
    (hIndex : ∀ x ∈ xs, ∀ y ∈ each x, index y = x) (hxs : xs.Nodup)
    (hEach : ∀ x ∈ xs, (each x).Nodup) : (xs.flatMap each).Nodup := by
  refine List.nodup_flatMap.mpr ⟨hEach, hxs.imp_of_mem fun {x x'} hx hx' hNe => ?_⟩
  refine List.disjoint_left.mpr fun y hy hy' => hNe ?_
  rw [← hIndex x hx y hy, hIndex x' hx' y hy']

theorem Macros.nodup_assignments (config : Macros) (run : Nat) :
    (config.assignments run).Nodup := by
  have hOwn : (ownBlock.filter config.enabled).Nodup := List.Nodup.filter _ (by decide)
  have hShared : (sharedBlock.filter config.enabled).Nodup := List.Nodup.filter _ (by decide)
  refine List.nodup_append.mpr ⟨?_, ?_, ?_⟩
  · refine nodup_flatMap_of_index Prod.fst (fun b _ x hx => ?_) hOwn fun b _ => ?_
    · obtain ⟨_, _, rfl⟩ := List.mem_map.mp hx
      rfl
    · exact List.nodup_range.map fun _ _ hEq => config.keysAt_inj (congrArg (·.2.2) hEq)
  · refine List.nodup_flatMap.mpr ⟨fun r _ => ?_, List.nodup_range.imp fun {r r'} hNe => ?_⟩
    · exact hShared.map fun _ _ hEq => congrArg Prod.fst hEq
    · refine List.disjoint_left.mpr fun x hx hx' => hNe ?_
      obtain ⟨_, _, rfl⟩ := List.mem_map.mp hx
      obtain ⟨_, _, hEq⟩ := List.mem_map.mp hx'
      exact (config.keysAt_inj (congrArg (·.2.2) hEq)).symm
  · rintro x hx _ hx' rfl
    simp only [List.mem_flatMap, List.mem_map, List.mem_filter] at hx hx'
    obtain ⟨b, ⟨hb, _⟩, _, _, rfl⟩ := hx
    obtain ⟨_, _, b', ⟨hb', _⟩, hEq⟩ := hx'
    obtain rfl : b' = b := congrArg Prod.fst hEq
    revert hb hb'
    cases b' <;> decide

/-- A run on one shim and blueprint that returns has made its assignments. -/
theorem assigned_benchmark {K T I G : Type} [DecidableEq K] (d : Setup K T I G) (run : Nat)
    {t : T} {g : G} {s : State T G} (h : (benchmark d run).run ⟨t, g, []⟩ = .ok (⟨⟩, s)) :
    assigned s.log = d.config.assignments run := by
  have hMarks : s.log.map Event.mark = d.config.timeline run := marks_benchmark d run _ _ _ h
  rw [assigned, hMarks, Macros.assignments_timeline]

end HashBench.Driver
