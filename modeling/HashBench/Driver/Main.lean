import HashBench.Driver.Results
import HashBench.Driver.TommydsLin

/-! The whole program. It runs every shim on every blueprint once a run, and
then writes the results of all runs to a page and to a table. -/
namespace HashBench.Driver

open Contract

/-- A shim compiled for a blueprint, with the keys generated for it. -/
structure Compiled where
  K : Type
  T : Type
  I : Type
  decEq : DecidableEq K
  shim : Shim K T I
  keys : Nat → K

/-- What the program is compiled from. The slots name shims and blueprints, and a
name may stand in several of them. -/
structure Program (G : Type) where
  config : Macros
  generator : Generator G
  shimSlots : List Nat
  blueprintSlots : List Nat
  compiled : Nat → Nat → Compiled

/-- The template arguments of a vector of results. -/
structure ResultsVector where
  shim : Nat
  blueprint : Nat
  benchmark : BenchmarkId
  deriving DecidableEq

/-- An access to a result. An assignment comes with the number of keys inserted
by the outer loop that it is made in. -/
inductive Access where
  | assign (vector : ResultsVector) (index i : Nat)
  | read (vector : ResultsVector) (index : Nat)
  deriving DecidableEq

structure MainState (G : Type) where
  generator : G
  trace : List Access

abbrev MainRun (G : Type) := StateT (MainState G) (Except Fault)

variable {G : Type} (p : Program G)

namespace Program

/-- The benchmarks that are compiled in. -/
def benchmarkIds : List BenchmarkId := (ownBlock ++ sharedBlock).filter p.config.enabled

def setup (h : p.config.Representable) (shim blueprint : Nat) :
    Setup (p.compiled shim blueprint).K (p.compiled shim blueprint).T
      (p.compiled shim blueprint).I G where
  config := ⟨p.config, h.1, h.2⟩
  shim := (p.compiled shim blueprint).shim
  generator := p.generator
  keys := (p.compiled shim blueprint).keys

/-- The access that an assignment of a run on a shim and blueprint is. -/
def assignment (shim blueprint : Nat) (result : Assignment) : Access :=
  .assign ⟨shim, blueprint, result.1⟩ result.2.1 result.2.2

/-- The benchmarks on a shim and blueprint. Before the first of them the vectors
of keys and of results get their lengths. -/
def benchmark (run shim blueprint : Nat) : MainRun G PUnit := fun s =>
  if h : p.config.Representable then
    let _ := (p.compiled shim blueprint).decEq
    match (Driver.benchmark (p.setup h shim blueprint) run).run
        ⟨(p.compiled shim blueprint).shim.createTable, s.generator, []⟩ with
    | .error e => .error e
    | .ok (_, s') =>
        .ok (⟨⟩, ⟨s'.generator, s.trace ++ (assigned s'.log).map (assignment shim blueprint)⟩)
  else .error .intOverflow

def benchmarks (run shim : Nat) : MainRun G PUnit :=
  p.blueprintSlots.forM (p.benchmark run shim)

section Output

variable (vector : ResultsVector)

def adjustedAverageResult (resultIndex : Nat) : List Access :=
  (List.range p.config.runCount).map fun run => .read vector (p.config.flatIndex run resultIndex)

/-- The reads of `max_adjusted_average_result`, and of `graph_shim_plot_out`. -/
def allAdjustedAverageResults : List Access :=
  (List.range p.config.resultCount).flatMap (p.adjustedAverageResult vector)

/-- The benchmarks in the first two blocks are cumulative. -/
def totalAdjustedAverageResult : List Access :=
  if vector.benchmark = .insertNonexisting ∨ vector.benchmark = .reinsertAfterErasure then
    p.adjustedAverageResult vector (p.config.resultCount - 1)
  else p.allAdjustedAverageResults vector

def csvShimOut : List Access :=
  ((List.range p.config.runCount).flatMap fun run =>
      (List.range p.config.resultCount).map fun r => .read vector (p.config.flatIndex run r)) ++
    p.allAdjustedAverageResults vector

end Output

/-- One pass over the shims, for a benchmark and a blueprint. -/
def overShims (out : ResultsVector → List Access) (benchmark : BenchmarkId) (blueprint : Nat) :
    List Access :=
  p.shimSlots.flatMap fun shim => out ⟨shim, blueprint, benchmark⟩

/-- The output for all benchmarks and blueprints. -/
def overBlueprints (out : BenchmarkId → Nat → List Access) : List Access :=
  p.benchmarkIds.flatMap fun benchmark => p.blueprintSlots.flatMap (out benchmark)

/-- A graph takes the maxima first, and then draws the plots. -/
def graphOut (benchmark : BenchmarkId) (blueprint : Nat) : List Access :=
  p.overShims p.allAdjustedAverageResults benchmark blueprint ++
    p.overShims p.allAdjustedAverageResults benchmark blueprint

/-- A row takes the lowest total first, and then the cells. -/
def heatmapRowOut (benchmark : BenchmarkId) (blueprint : Nat) : List Access :=
  p.overShims p.totalAdjustedAverageResult benchmark blueprint ++
    p.overShims p.totalAdjustedAverageResult benchmark blueprint

def htmlOut : List Access := p.overBlueprints p.graphOut ++ p.overBlueprints p.heatmapRowOut

def csvOut : List Access := p.overBlueprints (p.overShims p.csvShimOut)

/-- Adds accesses to the trace. -/
def access (accesses : List Access) : MainRun G PUnit :=
  modify fun s => { s with trace := s.trace ++ accesses }

def main : MainRun G PUnit := do
  (List.range p.config.runCount).forM fun run => p.shimSlots.forM (p.benchmarks run)
  access p.htmlOut
  access p.csvOut

section Trace

/-- A result that the configuration provides for. -/
structure Provided (vector : ResultsVector) (run r : Nat) : Prop where
  shim : vector.shim ∈ p.shimSlots
  blueprint : vector.blueprint ∈ p.blueprintSlots
  enabled : p.config.enabled vector.benchmark = true
  run : run < p.config.runCount
  result : r < p.config.resultCount

/-- All assignments, in their order. -/
def assignments : List Access :=
  (List.range p.config.runCount).flatMap fun run => p.shimSlots.flatMap fun shim =>
    p.blueprintSlots.flatMap fun blueprint =>
      (p.config.assignments run).map (assignment shim blueprint)

theorem emits_benchmark (run shim blueprint : Nat) :
    Emits MainState.trace (p.benchmark run shim blueprint)
      ((p.config.assignments run).map (assignment shim blueprint)) := by
  intro s _ s' hRun
  simp only [benchmark, StateT.run] at hRun
  split at hRun
  · rename_i hRepresentable
    split at hRun
    · cases hRun
    · rename_i sEnd hReturn
      cases hRun
      have hAssigned := @assigned_benchmark _ _ _ _ (p.compiled shim blueprint).decEq
        (p.setup hRepresentable shim blueprint) run _ _ _ hReturn
      rw [hAssigned]
      rfl
  · cases hRun

/-- The program assigns its results before it reads any. -/
theorem emits_main : Emits MainState.trace p.main (p.assignments ++ (p.htmlOut ++ p.csvOut)) :=
  (Emits.forM fun run _ => Emits.forM fun shim _ => Emits.forM fun blueprint _ =>
    p.emits_benchmark run shim blueprint).bind fun _ =>
      (Emits.update fun _ => rfl).bind fun _ => .update fun _ => rfl

theorem assign_mem_assignments {vector : ResultsVector} {index i : Nat} :
    .assign vector index i ∈ p.assignments ↔ ∃ run r, p.Provided vector run r ∧
      index = p.config.flatIndex run r ∧ i = p.config.keysAt r := by
  simp only [assignments, List.mem_flatMap, List.mem_range, List.mem_map, assignment,
    Access.assign.injEq]
  constructor
  · rintro ⟨run, hRun, shim, hShim, blueprint, hBlueprint, ⟨benchmark, _, _⟩, hMem, rfl, rfl, rfl⟩
    obtain ⟨hEnabled, r, hr, rfl, rfl⟩ := (p.config.mem_assignments run).mp hMem
    exact ⟨run, r, ⟨hShim, hBlueprint, hEnabled, hRun, hr⟩, rfl, rfl⟩
  · rintro ⟨run, r, h, rfl, rfl⟩
    exact ⟨run, h.run, vector.shim, h.shim, vector.blueprint, h.blueprint,
      (vector.benchmark, _, _),
      (p.config.mem_assignments run).mpr ⟨h.enabled, r, h.result, rfl, rfl⟩, rfl, rfl, rfl⟩

/-- The run, shim and blueprint of an assignment, as its vector and index tell them. -/
def origin : Access → Nat × Nat × Nat
  | .assign vector index _ => (index / p.config.resultCount, vector.shim, vector.blueprint)
  | .read vector index => (index / p.config.resultCount, vector.shim, vector.blueprint)

theorem origin_assignment {run shim blueprint : Nat} {a : Access}
    (h : a ∈ (p.config.assignments run).map (assignment shim blueprint)) :
    p.origin a = (run, shim, blueprint) := by
  obtain ⟨⟨benchmark, _, _⟩, hMem, rfl⟩ := List.mem_map.mp h
  obtain ⟨-, r, hr, rfl, rfl⟩ := (p.config.mem_assignments run).mp hMem
  rw [assignment, origin, p.config.flatIndex_div run hr]

/-- Over different shims and different blueprints no result is assigned twice. -/
theorem nodup_assignments (hShims : p.shimSlots.Nodup) (hBlueprints : p.blueprintSlots.Nodup) :
    p.assignments.Nodup := by
  refine nodup_flatMap_of_index (fun a => (p.origin a).1) (fun run _ a ha => ?_)
    List.nodup_range fun run _ => nodup_flatMap_of_index (fun a => (p.origin a).2.1)
      (fun shim _ a ha => ?_) hShims fun shim _ =>
        nodup_flatMap_of_index (fun a => (p.origin a).2.2) (fun blueprint _ a ha => ?_)
          hBlueprints fun blueprint _ => ?_
  · obtain ⟨_, _, hShim⟩ := List.mem_flatMap.mp ha
    obtain ⟨_, _, hBlueprint⟩ := List.mem_flatMap.mp hShim
    rw [p.origin_assignment hBlueprint]
  · obtain ⟨_, _, hBlueprint⟩ := List.mem_flatMap.mp ha
    rw [p.origin_assignment hBlueprint]
  · rw [p.origin_assignment ha]
  · refine (p.config.nodup_assignments run).map fun x x' hEq => ?_
    obtain ⟨hVector, hIndex, hCount⟩ := Access.assign.inj hEq
    exact Prod.ext (congrArg ResultsVector.benchmark hVector) (Prod.ext hIndex hCount)

/-- The reads of results that the configuration provides for. -/
def ReadsProvided (accesses : List Access) : Prop :=
  ∀ a ∈ accesses, ∃ vector run r, a = .read vector (p.config.flatIndex run r) ∧
    p.Provided vector run r

theorem ReadsProvided.append {accesses accesses' : List Access} (h : p.ReadsProvided accesses)
    (h' : p.ReadsProvided accesses') : p.ReadsProvided (accesses ++ accesses') := by
  intro a ha
  rcases List.mem_append.mp ha with hMem | hMem
  · exact h a hMem
  · exact h' a hMem

/-- A vector of results that the configuration provides for. -/
def Compiles (vector : ResultsVector) : Prop :=
  vector.shim ∈ p.shimSlots ∧ vector.blueprint ∈ p.blueprintSlots ∧
    p.config.enabled vector.benchmark = true

theorem reads_adjustedAverageResult {vector : ResultsVector} (h : p.Compiles vector) {r : Nat}
    (hr : r < p.config.resultCount) : p.ReadsProvided (p.adjustedAverageResult vector r) := by
  intro a ha
  obtain ⟨run, hRun, rfl⟩ := List.mem_map.mp ha
  exact ⟨vector, run, r, rfl, h.1, h.2.1, h.2.2, List.mem_range.mp hRun, hr⟩

theorem reads_allAdjustedAverageResults {vector : ResultsVector} (h : p.Compiles vector) :
    p.ReadsProvided (p.allAdjustedAverageResults vector) := by
  intro a ha
  obtain ⟨r, hr, hMem⟩ := List.mem_flatMap.mp ha
  exact p.reads_adjustedAverageResult h (List.mem_range.mp hr) a hMem

theorem reads_totalAdjustedAverageResult {vector : ResultsVector} (h : p.Compiles vector) :
    p.ReadsProvided (p.totalAdjustedAverageResult vector) := by
  unfold totalAdjustedAverageResult
  split
  · exact p.reads_adjustedAverageResult h (Nat.sub_lt p.config.resultCount_pos Nat.one_pos)
  · exact p.reads_allAdjustedAverageResults h

theorem reads_csvShimOut {vector : ResultsVector} (h : p.Compiles vector) :
    p.ReadsProvided (p.csvShimOut vector) := by
  refine ReadsProvided.append p (fun a ha => ?_) (p.reads_allAdjustedAverageResults h)
  obtain ⟨run, hRun, hMem⟩ := List.mem_flatMap.mp ha
  obtain ⟨r, hr, rfl⟩ := List.mem_map.mp hMem
  exact ⟨vector, run, r, rfl, h.1, h.2.1, h.2.2, List.mem_range.mp hRun, List.mem_range.mp hr⟩

theorem reads_overBlueprints {out : BenchmarkId → Nat → List Access}
    (h : ∀ benchmark blueprint, p.config.enabled benchmark = true →
      blueprint ∈ p.blueprintSlots → p.ReadsProvided (out benchmark blueprint)) :
    p.ReadsProvided (p.overBlueprints out) := by
  intro a ha
  obtain ⟨benchmark, hEnabled, hRest⟩ := List.mem_flatMap.mp ha
  obtain ⟨blueprint, hBlueprint, hMem⟩ := List.mem_flatMap.mp hRest
  exact h benchmark blueprint (List.mem_filter.mp hEnabled).2 hBlueprint a hMem

theorem reads_overShims {out : ResultsVector → List Access}
    (h : ∀ vector, p.Compiles vector → p.ReadsProvided (out vector)) (benchmark : BenchmarkId)
    (blueprint : Nat) (hEnabled : p.config.enabled benchmark = true)
    (hBlueprint : blueprint ∈ p.blueprintSlots) :
    p.ReadsProvided (p.overShims out benchmark blueprint) := by
  intro a ha
  obtain ⟨shim, hShim, hMem⟩ := List.mem_flatMap.mp ha
  exact h _ ⟨hShim, hBlueprint, hEnabled⟩ a hMem

/-- The output reads nothing but results that were assigned. -/
theorem reads_output : p.ReadsProvided (p.htmlOut ++ p.csvOut) := by
  have hAverages := p.reads_overShims fun _ => p.reads_allAdjustedAverageResults
  have hTotals := p.reads_overShims fun _ => p.reads_totalAdjustedAverageResult
  refine ReadsProvided.append p (ReadsProvided.append p ?_ ?_) ?_
  · exact p.reads_overBlueprints fun benchmark blueprint hEnabled hBlueprint =>
      .append p (hAverages benchmark blueprint hEnabled hBlueprint)
        (hAverages benchmark blueprint hEnabled hBlueprint)
  · exact p.reads_overBlueprints fun benchmark blueprint hEnabled hBlueprint =>
      .append p (hTotals benchmark blueprint hEnabled hBlueprint)
        (hTotals benchmark blueprint hEnabled hBlueprint)
  · exact p.reads_overBlueprints (p.reads_overShims fun _ => p.reads_csvShimOut)

end Trace

/-- Every shim meets its contract, and every blueprint generates distinct keys. -/
def Documented : Prop :=
  ∀ shim ∈ p.shimSlots, ∀ blueprint ∈ p.blueprintSlots,
    ∃ (V : Type) (bp : Blueprint (p.compiled shim blueprint).K V)
      (Stores : (p.compiled shim blueprint).T → Set (p.compiled shim blueprint).K → Prop),
      (p.compiled shim blueprint).shim.IsMap bp Stores ∧
        (p.compiled shim blueprint).shim.Iterates bp Stores ∧
        ∀ a b, a < p.config.uniqueKeyCount → b < p.config.uniqueKeyCount → a ≠ b →
          bp.cmprKeys ((p.compiled shim blueprint).keys a) ((p.compiled shim blueprint).keys b) =
            false

/-- Over such shims the program comes to its end. -/
theorem meets_main (hRepresentable : p.config.Representable) (h : p.Documented) :
    Meets (fun _ => True) p.main fun _ _ => True := by
  have hAccess (accesses : List Access) :
      Meets (fun _ : MainState G => True) (access accesses) fun _ _ => True :=
    Meets.update fun _ => id
  refine Meets.seq (Meets.forM (fun _ _ => True) fun run _ hRun =>
    Meets.forM (fun _ _ => True) fun shim _ hShim =>
      Meets.forM (fun _ _ => True) fun blueprint _ hBlueprint => ?_)
    ((hAccess p.htmlOut).seq (hAccess p.csvOut))
  obtain ⟨V, bp, Stores, hMap, hIterates, hKeys⟩ := h shim hShim blueprint hBlueprint
  intro s _
  let _ := (p.compiled shim blueprint).decEq
  obtain ⟨_, sEnd, hReturn, _⟩ := meets_benchmark (d := p.setup hRepresentable shim blueprint) hMap
    (fun _ => hIterates) hKeys (List.mem_range.mp hRun)
    ⟨(p.compiled shim blueprint).shim.createTable, s.generator, []⟩
    fun e he => absurd he List.not_mem_nil
  refine ⟨⟨⟩, ⟨sEnd.generator,
    s.trace ++ (assigned sEnd.log).map (assignment shim blueprint)⟩, ?_, trivial⟩
  rw [StateT.run] at hReturn
  simp only [benchmark, StateT.run, dif_pos hRepresentable]
  rw [hReturn]

/-- A length that is no `int` ends the program at its first benchmark. -/
theorem main_of_not_representable (h : ¬ p.config.Representable) (hRun : 0 < p.config.runCount)
    (hShims : p.shimSlots ≠ []) (hBlueprints : p.blueprintSlots ≠ []) (s : MainState G) :
    p.main.run s = .error .intOverflow := by
  obtain ⟨runs, hRuns⟩ := Nat.exists_eq_add_one_of_ne_zero hRun.ne'
  obtain ⟨shim, shims, hShims⟩ := List.exists_cons_of_ne_nil hShims
  obtain ⟨blueprint, blueprints, hBlueprints⟩ := List.exists_cons_of_ne_nil hBlueprints
  have hFirst : (p.benchmark 0 shim blueprint).run s = .error .intOverflow := by
    simp only [benchmark, StateT.run, dif_neg h]
  have hBlueprint : (p.benchmarks 0 shim).run s = .error .intOverflow := by
    rw [benchmarks, hBlueprints]
    exact run_forM_of_error hFirst
  have hShim : (p.shimSlots.forM (p.benchmarks 0)).run s = .error .intOverflow := by
    rw [hShims]
    exact run_forM_of_error hBlueprint
  rw [main, hRuns, List.range_succ_eq_map]
  exact run_bind_of_error (run_forM_of_error hShim)

/-- Every result is assigned once, inside its vector, after as many steps of
the outer loop as its label says, and is not read before that. -/
structure AssignedOnce (trace : List Access) : Prop where
  inside : ∀ vector index i, .assign vector index i ∈ trace → index < p.config.resultsSize
  once : ∀ vector run r, p.Provided vector run r → ∃ before after,
    trace = before ++ .assign vector (p.config.flatIndex run r)
        ((r + 1) * p.config.keyCountMeasurementInterval) :: after ∧
      (∀ i, .assign vector (p.config.flatIndex run r) i ∉ before ++ after) ∧
        .read vector (p.config.flatIndex run r) ∉ before

theorem assignedOnce (hShims : p.shimSlots.Nodup) (hBlueprints : p.blueprintSlots.Nodup) :
    p.AssignedOnce (p.assignments ++ (p.htmlOut ++ p.csvOut)) := by
  have hReads : ∀ vector index i, .assign vector index i ∉ p.htmlOut ++ p.csvOut := by
    intro vector index i hMem
    obtain ⟨_, _, _, hEq, _⟩ := p.reads_output _ hMem
    cases hEq
  have hAssigns : ∀ vector index, .read vector index ∉ p.assignments := by
    intro vector index hMem
    obtain ⟨_, _, hShims⟩ := List.mem_flatMap.mp hMem
    obtain ⟨_, _, hBlueprints⟩ := List.mem_flatMap.mp hShims
    obtain ⟨_, _, hResults⟩ := List.mem_flatMap.mp hBlueprints
    obtain ⟨_, _, hEq⟩ := List.mem_map.mp hResults
    cases hEq
  constructor
  · intro vector index i hMem
    rcases List.mem_append.mp hMem with hAssign | hRead
    · obtain ⟨run, r, hProvided, rfl, _⟩ := p.assign_mem_assignments.mp hAssign
      exact p.config.flatIndex_lt hProvided.run hProvided.result
    · exact absurd hRead (hReads vector index i)
  · intro vector run r hProvided
    obtain ⟨before, after, hSplit⟩ := List.append_of_mem
      (p.assign_mem_assignments.mpr ⟨run, r, hProvided, rfl, rfl⟩)
    have hNodup := p.nodup_assignments hShims hBlueprints
    rw [hSplit] at hNodup
    refine ⟨before, after ++ (p.htmlOut ++ p.csvOut), by rw [hSplit, Macros.keysAt]; simp,
      fun i hMem => ?_, fun hMem => hAssigns _ _ (hSplit ▸ List.mem_append_left _ hMem)⟩
    rw [← List.append_assoc] at hMem
    rcases List.mem_append.mp hMem with hOther | hRead
    · have hAssign : .assign vector (p.config.flatIndex run r) i ∈ p.assignments := by
        rw [hSplit]
        rcases List.mem_append.mp hOther with hBefore | hAfter
        · exact List.mem_append_left _ hBefore
        · exact List.mem_append_right _ (List.mem_cons_of_mem _ hAfter)
      obtain ⟨run', r', hProvided', hIndex, rfl⟩ := p.assign_mem_assignments.mp hAssign
      obtain ⟨rfl, rfl⟩ := p.config.flatIndex_inj hProvided.result hProvided'.result hIndex
      exact (List.nodup_middle.mp hNodup).notMem hOther
    · exact hReads _ _ _ hRead

/-- A trace with two equal assignments does not assign every result once. -/
theorem not_assignedOnce {vector : ResultsVector} {run r : Nat} {trace : List Access}
    (h : p.Provided vector run r)
    (hTwice : trace.count (.assign vector (p.config.flatIndex run r)
      ((r + 1) * p.config.keyCountMeasurementInterval)) = 2) : ¬ p.AssignedOnce trace := by
  intro hOnce
  obtain ⟨before, after, rfl, hNone, _⟩ := hOnce.once vector run r h
  have hRest := List.count_eq_zero.mpr (hNone ((r + 1) * p.config.keyCountMeasurementInterval))
  rw [List.count_append] at hRest
  rw [List.count_append, List.count_cons_self] at hTwice
  omega

end Program

/-- No result is lost or overwritten, if the lengths of the vectors are
representable and no shim and no blueprint has two slots. However the shims
behave, a program that comes to its output has then assigned every result exactly
once before, and over shims that meet their contract it always comes to its end. -/
theorem main_assigns_results_once (p : Program G) (hRepresentable : p.config.Representable)
    (hShims : p.shimSlots.Nodup) (hBlueprints : p.blueprintSlots.Nodup) :
    (∀ run run' r r', r < p.config.resultCount → r' < p.config.resultCount →
        p.config.flatIndex run r = p.config.flatIndex run' r' → run = run' ∧ r = r') ∧
      (∀ g s, p.main.run ⟨g, []⟩ = .ok (⟨⟩, s) → p.AssignedOnce s.trace) ∧
      (p.Documented → ∀ g, ∃ s, p.main.run ⟨g, []⟩ = .ok (⟨⟩, s)) := by
  refine ⟨fun _ _ _ _ hr hr' => p.config.flatIndex_inj hr hr', fun g s hReturn => ?_,
    fun hDocumented g => ?_⟩
  · have hTrace : s.trace = [] ++ (p.assignments ++ (p.htmlOut ++ p.csvOut)) :=
      p.emits_main ⟨g, []⟩ _ s hReturn
    rw [hTrace, List.nil_append]
    exact p.assignedOnce hShims hBlueprints
  · obtain ⟨_, s, hReturn, _⟩ := p.meets_main hRepresentable hDocumented ⟨g, []⟩ trivial
    exact ⟨s, hReturn⟩

/-- The tommyds_lin shim in these slots, on one blueprint. -/
def tommydsLinProgram (config : Macros) (shimSlots : List Nat) : Program Unit where
  config := config
  generator := lowestDraw
  shimSlots := shimSlots
  blueprintSlots := [0]
  compiled _ _ :=
    { K := Nat, T := Tommyds.TommyHashlin Nat Unit,
      I := Tommyds.Iterator (Tommyds.TommyHashlin Nat Unit) Nat Unit, decEq := inferInstance,
      shim := tommydsLinShim (fun _ => []) (Blueprint.ofEq (fun k => k) ()), keys := id }

theorem tommydsLinProgram_documented (config : Macros) (shimSlots : List Nat) :
    (tommydsLinProgram config shimSlots).Documented := by
  intro _ _ _ _
  let bp : Blueprint Nat Unit := Blueprint.ofEq (fun k => k) ()
  have hEq : ∀ k₁ k₂, bp.cmprKeys k₁ k₂ = true → k₁ = k₂ := fun _ _ h => of_decide_eq_true h
  have hKeys : ∀ a b : Nat, a ≠ b → bp.cmprKeys a b = false := fun _ _ hNe => decide_eq_false hNe
  exact ⟨Unit, bp, TommydsLinStores (fun _ => []) bp, tommydsLin_isMap hEq,
    tommydsLin_iterates hEq, fun a b _ _ => hKeys a b⟩

/-- Two runs of one shim. -/
def oneShim : Program Unit := tommydsLinProgram (.all 2 1 2 (by decide)) [0]

theorem main_assigns_results_once_oneShim :
    ∃ s, oneShim.main.run ⟨(), []⟩ = .ok (⟨⟩, s) ∧ oneShim.AssignedOnce s.trace := by
  obtain ⟨_, hOnce, hReturns⟩ :=
    main_assigns_results_once oneShim (by decide) (by decide) (by decide)
  obtain ⟨s, hReturn⟩ := hReturns (tommydsLinProgram_documented _ _) ()
  exact ⟨s, hReturn, hOnce () s hReturn⟩

/-- One shim in two slots, and one result. -/
def repeatedShim : Program Unit := tommydsLinProgram (.all 1 1 1 (by decide)) [0, 0]

/-- The number of results of all runs is no `int`. -/
def manyRuns : Program Unit := tommydsLinProgram (.all 1000 1 4294968 (by decide)) [0]

/-- The number of keys is no `int`. -/
def manyKeys : Program Unit := tommydsLinProgram (.all 4000000 1 1 (by decide)) [0]

/-- A shim in two slots has its result assigned twice, and lengths that are not
representable end the program before it assigns any. -/
theorem main_loses_results :
    (∃ s, repeatedShim.main.run ⟨(), []⟩ = .ok (⟨⟩, s) ∧ ¬ repeatedShim.AssignedOnce s.trace) ∧
      manyRuns.main.run ⟨(), []⟩ = .error .intOverflow ∧
      manyKeys.main.run ⟨(), []⟩ = .error .intOverflow := by
  refine ⟨?_, ?_, ?_⟩
  · obtain ⟨_, s, hReturn, _⟩ := repeatedShim.meets_main (by decide)
      (tommydsLinProgram_documented _ _) ⟨(), []⟩ trivial
    have hTrace := repeatedShim.emits_main ⟨(), []⟩ _ s hReturn
    have hProvided : repeatedShim.Provided ⟨0, 0, .insertNonexisting⟩ 0 0 :=
      ⟨by decide, by decide, rfl, by decide, by decide⟩
    refine ⟨s, hReturn, repeatedShim.not_assignedOnce hProvided ?_⟩
    rw [hTrace]
    decide
  · exact manyRuns.main_of_not_representable (by decide) (by decide) (by decide) (by decide) _
  · exact manyKeys.main_of_not_representable (by decide) (by decide) (by decide) (by decide) _

end HashBench.Driver
