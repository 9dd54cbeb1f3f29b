import HashBench.Driver.Coverage
import HashBench.Driver.Rounds

/-! The record of a run on one shim and blueprint. Whatever the shim does, a run
that returns has noted the same moments, searches and assignments in the same
order, and over a shim that meets its contract the table is at each of these
moments what the benchmark measures. -/
namespace HashBench.Driver

open Contract Set Tommyds

variable {K V T I G : Type}

/-- A record without the table, and without what a search has found. -/
inductive Mark where
  | table (benchmark : BenchmarkId) (moment : Moment) (i : Nat)
  | found (benchmark : BenchmarkId)
  | assigned (benchmark : BenchmarkId) (index i : Nat)
  deriving DecidableEq

def Event.mark : Event T → Mark
  | .table benchmark moment i _ => .table benchmark moment i
  | .found benchmark _ => .found benchmark
  | .assigned benchmark index i => .assigned benchmark index i

/-- The benchmarks that have a block of their own. -/
def ownBlock : List BenchmarkId := [.insertNonexisting, .reinsertAfterErasure, .eraseExisting]

/-- The benchmarks that share a block. -/
def sharedBlock : List BenchmarkId :=
  [.insertExisting, .eraseNonexisting, .getExisting, .getNonexisting, .iteration]

/-- The number of searches that a timed stretch records. -/
def searches : BenchmarkId → Nat
  | .getExisting => 1000
  | .getNonexisting => 1000
  | _ => 0

namespace Macros

variable (config : Macros) (run : Nat)

/-- The number of keys inserted at a measurement. -/
def keysAt (r : Nat) : Nat := (r + 1) * config.keyCountMeasurementInterval

/-- A timed stretch ends with the assignment of its result. -/
def resultMarks (benchmark : BenchmarkId) (r : Nat) : List Mark :=
  [.table benchmark .finished (config.keysAt r),
    .assigned benchmark (config.flatIndex run r) (config.keysAt r)]

def timedMarks (benchmark : BenchmarkId) (r : Nat) : List Mark :=
  .table benchmark .started (config.keysAt r) ::
    (List.replicate (searches benchmark) (.found benchmark) ++ config.resultMarks run benchmark r)

/-- The records of a block of its own. The two cumulative benchmarks read the
clock once at their start. -/
def ownMarks : BenchmarkId → List Mark
  | .eraseExisting => (List.range config.resultCount).flatMap fun r =>
      config.timedMarks run .eraseExisting r ++ [.table .eraseExisting .restored (config.keysAt r)]
  | benchmark => .table benchmark .started 0 ::
      (List.range config.resultCount).flatMap (config.resultMarks run benchmark)

/-- The records of the shared block. Each measurement goes through its benchmarks. -/
def sharedMarks : List Mark :=
  (List.range config.resultCount).flatMap fun r =>
    (sharedBlock.filter config.enabled).flatMap fun benchmark => config.timedMarks run benchmark r

/-- The records of a run, in their order. -/
def timeline : List Mark :=
  (ownBlock.filter config.enabled).flatMap (config.ownMarks run) ++ config.sharedMarks run

end Macros

/-- The index that a measurement computes for its result. -/
theorem Config.sizePred_round (config : Config) {r : Nat} (hr : r < config.resultCount) :
    sizePred (config.keysAt r / config.keyCountMeasurementInterval) = r := by
  have hTotal := config.total_lt
  have hCount : config.resultCount ≤ config.keyCount := Nat.div_le_self ..
  rw [Macros.keysAt, Nat.mul_div_cancel _ config.interval_pos,
    sizePred_eq r.succ_pos (by omega), Nat.succ_sub_one]

section Marks

variable (d : Setup K T I G)

/-- A program that adds these records to the log. -/
abbrev Marks {α : Type} (prog : Run T G α) (out : List Mark) : Prop :=
  Emits (fun s : State T G => s.log.map Event.mark) prog out

theorem marks_note (benchmark : BenchmarkId) (moment : Moment) (i : Nat) :
    Marks (note benchmark moment i : Run T G PUnit) [.table benchmark moment i] :=
  .update fun s => by simp [Event.mark]

theorem marks_noteFound (benchmark : BenchmarkId) (itr : I) :
    Marks (noteFound d benchmark itr) [.found benchmark] :=
  .update fun s => by simp [Event.mark]

theorem marks_noteAssigned (benchmark : BenchmarkId) (index i : Nat) :
    Marks (noteAssigned benchmark index i : Run T G PUnit) [.assigned benchmark index i] :=
  .update fun s => by simp [Event.mark]

theorem marks_shuffledUniqueKey (index : Nat) :
    Marks (shuffledUniqueKey d index : Run T G K) [] :=
  .ite (.ret _) (.fault _)

theorem marks_results (run resultIndex : Nat) :
    Marks (results d run resultIndex : Run T G Nat) [] :=
  .ite (.ret _) (.fault _)

theorem marks_uniform (lo hi : Nat) : Marks (uniform d lo hi : Run T G Nat) [] := by
  refine .ite (fun s a s' hRun => ?_) (.fault _)
  cases hRun
  exact (List.append_nil _).symm

theorem marks_createTable : Marks (createTable d : Run T G PUnit) [] :=
  .update fun _ => (List.append_nil _).symm

theorem marks_insertKey (index : Nat) : Marks (insertKey d index) [] :=
  (marks_shuffledUniqueKey d index).after fun _ => .update fun _ => (List.append_nil _).symm

theorem marks_eraseKey (index : Nat) : Marks (eraseKey d index) [] :=
  (marks_shuffledUniqueKey d index).after fun _ => .update fun _ => (List.append_nil _).symm

theorem marks_findKey (index : Nat) : Marks (findKey d index) [] := by
  refine (marks_shuffledUniqueKey d index).after fun _ s a s' hRun => ?_
  cases hRun
  exact (List.append_nil _).symm

theorem marks_window {step : Nat → Run T G PUnit} {out : List Mark} (h : ∀ l, Marks (step l) out)
    (lo hi left l : Nat) :
    Marks (window step lo hi left l) (List.replicate left out).flatten := by
  induction left generalizing l with
  | zero => exact .ret _
  | succ left ih => exact (h l).bind fun _ => ih _

theorem marks_window_nil {step : Nat → Run T G PUnit} (h : ∀ l, Marks (step l) [])
    (lo hi left l : Nat) : Marks (window step lo hi left l) [] :=
  List.flatten_replicate_nil ▸ marks_window h lo hi left l

theorem marks_window_one {step : Nat → Run T G PUnit} {mark : Mark}
    (h : ∀ l, Marks (step l) [mark]) (lo hi left l : Nat) :
    Marks (window step lo hi left l) (List.replicate left mark) :=
  List.flatten_replicate_singleton ▸ marks_window h lo hi left l

/-- The assignment after measurement `r` goes to the position of result `r`. -/
theorem marks_assignResult (run : Nat) (benchmark : BenchmarkId) {r : Nat}
    (hr : r < d.config.resultCount) :
    Marks (assignResult d run benchmark (d.config.keysAt r) : Run T G PUnit)
      (d.config.resultMarks run benchmark r) := by
  rw [assignResult, d.config.sizePred_round hr, results]
  refine (marks_note benchmark .finished _).bind fun _ => ?_
  split
  · rw [pure_bind]
    exact marks_noteAssigned benchmark _ _
  · exact .fault _

theorem marks_timed {body : Run T G PUnit} (run : Nat) {benchmark : BenchmarkId} {r : Nat}
    (hBody : Marks body (List.replicate (searches benchmark) (.found benchmark)))
    (hr : r < d.config.resultCount) :
    Marks (timed d run benchmark (d.config.keysAt r) body)
      (d.config.timedMarks run benchmark r) :=
  (marks_note benchmark .started _).bind fun _ => hBody.bind fun _ =>
    marks_assignResult d run benchmark hr

theorem marks_grow {measure : Nat → Run T G PUnit} {each : Nat → List Mark}
    (h : ∀ r < d.config.resultCount, Marks (measure (d.config.keysAt r)) (each r)) :
    Marks (grow d measure 0 0) ((List.range d.config.resultCount).flatMap each) := by
  rw [grow_eq_rounds]
  refine Emits.forM fun r hr => ?_
  exact (Emits.forM_nil (marks_insertKey d) _).after fun _ => h r (List.mem_range.mp hr)

theorem marks_ifEnabled {benchmark : BenchmarkId} {body : Run T G PUnit} {out : List Mark}
    (h : Marks body out) :
    Marks (ifEnabled d benchmark body) (if d.config.enabled benchmark then out else []) := by
  unfold ifEnabled
  split
  · exact h
  · exact .ret _

end Marks

section Blocks

variable (d : Setup K T I G) (run : Nat)

theorem marks_insertNonexisting :
    Marks (insertNonexisting d run) (d.config.ownMarks run .insertNonexisting) :=
  (marks_createTable d).after fun _ => (marks_note _ _ 0).bind fun _ =>
    marks_grow d fun _ => marks_assignResult d run .insertNonexisting

theorem marks_reinsertAfterErasure :
    Marks (reinsertAfterErasure d run) (d.config.ownMarks run .reinsertAfterErasure) :=
  (marks_createTable d).after fun _ =>
    (Emits.forM_nil (marks_insertKey d) _).after fun _ =>
      (Emits.forM_nil (marks_eraseKey d) _).after fun _ => (marks_note _ _ 0).bind fun _ =>
        marks_grow d fun _ => marks_assignResult d run .reinsertAfterErasure

theorem marks_eraseExisting :
    Marks (eraseExisting d run) (d.config.ownMarks run .eraseExisting) := by
  refine (marks_createTable d).after fun _ => marks_grow d fun r hr => ?_
  refine (marks_uniform d 0 _).after fun l => ?_
  refine (marks_timed d run (marks_window_nil (marks_eraseKey d) 0 _ 1000 l) hr).bind fun _ => ?_
  exact (marks_window_nil (marks_insertKey d) 0 _ 1000 l).after fun _ =>
    marks_note .eraseExisting .restored _

variable {r : Nat} (hr : r < d.config.resultCount)

include hr

theorem marks_insertExisting :
    Marks (insertExisting d run (d.config.keysAt r))
      (d.config.timedMarks run .insertExisting r) :=
  (marks_uniform d 0 _).after fun l =>
    marks_timed d run (marks_window_nil (marks_insertKey d) 0 _ 1000 l) hr

theorem marks_eraseNonexisting :
    Marks (eraseNonexisting d run (d.config.keysAt r))
      (d.config.timedMarks run .eraseNonexisting r) :=
  (marks_uniform d _ _).after fun l =>
    marks_timed d run (marks_window_nil (marks_eraseKey d) _ _ 1000 l) hr

omit hr in
theorem marks_getExistingStep [DecidableEq K] (l : Nat) :
    Marks (getExistingStep d l) [.found .getExisting] := by
  refine (marks_findKey d l).after fun itr => (marks_noteFound d _ itr).before fun _ => ?_
  intro s a s' hRun
  rw [StateT.run_bind, StateT.run_get, pure_bind] at hRun
  dsimp only at hRun
  split at hRun
  · cases hRun
  · exact ((marks_shuffledUniqueKey d l).after fun expected => .ite (.fault _) (.ret _))
      s a s' hRun

theorem marks_getExisting [DecidableEq K] :
    Marks (getExisting d run (d.config.keysAt r)) (d.config.timedMarks run .getExisting r) :=
  (marks_uniform d 0 _).after fun l =>
    marks_timed d run (marks_window_one (marks_getExistingStep d) 0 _ 1000 l) hr

theorem marks_getNonexisting :
    Marks (getNonexisting d run (d.config.keysAt r))
      (d.config.timedMarks run .getNonexisting r) :=
  (marks_uniform d _ _).after fun l =>
    marks_timed d run (marks_window_one (fun l => (marks_findKey d l).after fun itr =>
      marks_noteFound d .getNonexisting itr) _ _ 1000 l) hr

omit hr in
theorem marks_readKeys (t : T) (left : Nat) (itr : I) :
    Marks (readKeys d t left itr : Run T G (List K)) [] := by
  induction left generalizing itr with
  | zero => exact .ret _
  | succ left ih =>
      have hRead : Marks (readKey d t itr : Run T G K) [] := by
        refine .ite ?_ (.fault _)
        split
        · exact .fault _
        · exact .ret _
      exact hRead.after fun _ => (ih _).after fun _ => .ret _

theorem marks_iteration :
    Marks (iteration d run (d.config.keysAt r)) (d.config.timedMarks run .iteration r) := by
  refine Emits.before ?_ fun _ => .ret _
  refine (marks_uniform d 0 _).after fun l => (marks_findKey d l).after fun itr => ?_
  refine (marks_note .iteration .started _).bind fun _ => ?_
  intro s a s' hRun
  rw [StateT.run_bind, StateT.run_get, pure_bind] at hRun
  exact ((marks_readKeys d s.table 1000 itr).after fun keys =>
    (marks_assignResult d run .iteration hr).before fun _ => .ret _) s a s' hRun

omit hr in
theorem filter_flatMap_cons {ω : Type} (enabled : BenchmarkId → Bool)
    (each : BenchmarkId → List ω) (b : BenchmarkId) (bs : List BenchmarkId) :
    ((b :: bs).filter enabled).flatMap each =
      (if enabled b then each b else []) ++ (bs.filter enabled).flatMap each := by
  rw [List.filter_cons]
  split <;> rfl

omit hr in
theorem marks_combined [DecidableEq K] :
    Marks (combined d run) (d.config.sharedMarks run) := by
  refine (marks_createTable d).after fun _ => marks_grow d fun r hr => ?_
  simp only [sharedBlock, filter_flatMap_cons, List.filter_nil, List.flatMap_nil, List.append_nil]
  exact (marks_ifEnabled d (marks_insertExisting d run hr)).bind fun _ =>
    (marks_ifEnabled d (marks_eraseNonexisting d run hr)).bind fun _ =>
      (marks_ifEnabled d (marks_getExisting d run hr)).bind fun _ =>
        (marks_ifEnabled d (marks_getNonexisting d run hr)).bind fun _ =>
          marks_ifEnabled d (marks_iteration d run hr)

omit hr in
/-- A run on one shim and blueprint that returns has the records of its timeline. -/
theorem marks_benchmark [DecidableEq K] :
    Marks (benchmark d run) (d.config.timeline run) := by
  have hShared : Marks (if d.config.enabled .insertExisting || d.config.enabled .eraseNonexisting ||
      d.config.enabled .getExisting || d.config.enabled .getNonexisting ||
      d.config.enabled .iteration then combined d run else return ⟨⟩)
      (d.config.sharedMarks run) := by
    split
    · exact marks_combined d run
    · rename_i hNone
      have hFilter : sharedBlock.filter d.config.enabled = [] := by
        simp only [Bool.or_eq_true, not_or, Bool.not_eq_true] at hNone
        simp [sharedBlock, hNone]
      rw [Macros.sharedMarks, hFilter, List.flatMap_eq_nil_iff.mpr fun _ _ => List.flatMap_nil]
      exact .ret _
  rw [Macros.timeline]
  simp only [ownBlock, filter_flatMap_cons, List.filter_nil, List.flatMap_nil, List.append_nil,
    List.append_assoc]
  refine (marks_shuffledUniqueKey d 0).after fun _ => (marks_results d 0 0).after fun _ => ?_
  exact (marks_ifEnabled d (marks_insertNonexisting d run)).bind fun _ =>
    (marks_ifEnabled d (marks_reinsertAfterErasure d run)).bind fun _ =>
      (marks_ifEnabled d (marks_eraseExisting d run)).bind fun _ => hShared

end Blocks

section Contract

variable {bp : Blueprint K V} {d : Setup K T I G} {Stores : T → Set K → Prop} {run : Nat}
  (hShim : d.shim.IsMap bp Stores)
  (hIterates : d.config.enabled .iteration = true → d.shim.Iterates bp Stores)
  (hKeys : ∀ a b, a < d.config.uniqueKeyCount → b < d.config.uniqueKeyCount → a ≠ b →
    bp.cmprKeys (d.keys a) (d.keys b) = false)
  (hRun : run < d.config.runCount)

include hShim hIterates hKeys hRun

theorem Contents.combined [DecidableEq K] :
    Meets (LogExpected d Stores) (combined d run) fun _ =>
      Contents d Stores (Iio d.config.keyCount) := by
  refine (Contents.createTable hShim fun _ => id).seq
    (meets_grow _ (fun _ => Contents.insertNext hShim hKeys) (fun i hPos hLe hEnd => ?_)
      (Nat.zero_le _) (Nat.zero_mod _))
  have hIteration : Meets (Contents d Stores (Iio i))
      (ifEnabled d .iteration (Driver.iteration d run i)) fun _ => Contents d Stores (Iio i) :=
    meets_ifEnabled fun hEnabled =>
      Contents.iteration hShim (hIterates hEnabled) hKeys hRun hPos hLe hEnd
  exact (meets_ifEnabled fun _ => Contents.insertExisting hShim hKeys hRun hPos hLe hEnd).seq
    ((meets_ifEnabled fun _ => Contents.eraseNonexisting hShim hKeys hRun hPos hLe hEnd).seq
      ((meets_ifEnabled fun _ => Contents.getExisting hShim hKeys hRun hPos hLe hEnd).seq
        ((meets_ifEnabled fun _ => Contents.getNonexisting hShim hKeys hRun hPos hLe hEnd).seq
          hIteration)))

omit hShim hIterates hKeys hRun in
theorem meets_block {benchmark : BenchmarkId} {body : Run T G PUnit} {indices : Set Nat}
    (h : Meets (LogExpected d Stores) body fun _ => Contents d Stores indices) :
    Meets (LogExpected d Stores) (ifEnabled d benchmark body) fun _ => LogExpected d Stores :=
  meets_ifEnabled fun _ => h.weaken (fun _ => id) fun _ _ => Contents.expected

/-- A run of the driver ends without a fault, with all records as expected. -/
theorem meets_benchmark [DecidableEq K] :
    Meets (LogExpected d Stores) (benchmark d run) fun _ => LogExpected d Stores := by
  have hCount := d.config.keyCount_pos
  have hLess := d.config.keyCount_lt
  rw [benchmark, shuffledUniqueKey_eq (by omega), pure_bind,
    results_eq (by omega) d.config.resultCount_pos, pure_bind]
  refine (meets_block (Contents.insertNonexisting hShim hKeys hRun)).seq
    ((meets_block (Contents.reinsertAfterErasure hShim hKeys hRun)).seq
      ((meets_block (Contents.eraseExisting hShim hKeys hRun)).seq ?_))
  split
  · exact (Contents.combined hShim hIterates hKeys hRun).weaken (fun _ => id)
      fun _ _ => Contents.expected
  · exact Meets.ret fun _ => id

end Contract

/-- Over every table that meets the documented contract, and for all draws, a
run of the driver ends without a fault: it reads no key that was not generated,
reads through no invalid iterator and does not exit. The record has every
measurement of every enabled benchmark, with all of its searches. The table
stores at each of these moments what the benchmark measures, and searches for
existing keys alone find one. -/
theorem benchmark_keeps_contents [DecidableEq K] (bp : Blueprint K V) (d : Setup K T I G)
    (Stores : T → Set K → Prop) (hShim : d.shim.IsMap bp Stores)
    (hIterates : d.config.enabled .iteration = true → d.shim.Iterates bp Stores)
    (hKeys : ∀ a b, a < d.config.uniqueKeyCount → b < d.config.uniqueKeyCount → a ≠ b →
      bp.cmprKeys (d.keys a) (d.keys b) = false)
    (run : Nat) (hRun : run < d.config.runCount) (t : T) (g : G) :
    ∃ s, (benchmark d run).run ⟨t, g, []⟩ = .ok (⟨⟩, s) ∧ (∀ e ∈ s.log, e.Expected d Stores) ∧
      s.log.map Event.mark = d.config.timeline run := by
  obtain ⟨_, s, hReturn, hLog⟩ :=
    meets_benchmark hShim hIterates hKeys hRun ⟨t, g, []⟩ fun e he => absurd he List.not_mem_nil
  exact ⟨s, hReturn, hLog, marks_benchmark d run _ _ _ hReturn⟩

/-- Two keys, with a measurement after each, every benchmark enabled, and the
lowest index drawn each time. -/
theorem benchmark_keeps_contents_tommydsLin :
    ∃ (d : Setup Nat (TommyHashlin Nat Unit) (Iterator (TommyHashlin Nat Unit) Nat Unit) Unit)
      (s : State (TommyHashlin Nat Unit) Unit),
      d.config.keyCount = 2 ∧ d.config.keyCountMeasurementInterval = 1 ∧
        (benchmark d 0).run ⟨TommydsLin.createTable, (), []⟩ = .ok (⟨⟩, s) ∧
        (∀ e ∈ s.log, e.Expected d
          (TommydsLinStores (fun _ => []) (Blueprint.ofEq (fun k : Nat => k) ()))) ∧
        s.log.map Event.mark = d.config.timeline 0 :=
  ⟨tommydsLinSetup (.all 2 1 1 (by decide) (by decide)), _, rfl, rfl,
    (benchmark_keeps_contents (Blueprint.ofEq (fun k : Nat => k) ()) _ _
      (tommydsLin_isMap fun _ _ h => of_decide_eq_true h)
      (fun _ => tommydsLin_iterates fun _ _ h => of_decide_eq_true h)
      (fun _ _ _ _ hNe => decide_eq_false hNe) 0 Nat.one_pos TommydsLin.createTable ()).choose_spec⟩

end HashBench.Driver
