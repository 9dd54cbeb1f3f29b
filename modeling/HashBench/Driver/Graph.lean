import HashBench.Driver.Contents
import HashBench.Library.Sorting
import Mathlib.Algebra.Order.Field.Rat
import Mathlib.Tactic.Ring
import Mathlib.Tactic.NormNum

/-! The scale of a graph. The page holds one rule for each plot that sets the
scale where the plot is checked, and the last of those that apply wins. Numbers
of type `double` are taken as rationals. -/
namespace HashBench.Driver

open Sorting

/-- The macros that the output depends on, with what is asserted of them. -/
structure OutputConfig extends Macros where
  discardedRunsCount : Nat
  discarded_lt : discardedRunsCount < runCount
  discarded_even : discardedRunsCount % 2 = 0

/-- A shim in a graph: the id of its plot, and its vector of results. -/
structure Plot where
  id : Nat
  results : Nat → BitVec 64

/-- `transform: translate( .. ) scale( .. )`. -/
structure Transform where
  translateX : ℚ
  translateY : ℚ
  scaleX : ℚ
  scaleY : ℚ
  deriving DecidableEq

def Transform.apply (t : Transform) (point : ℚ × ℚ) : ℚ × ℚ :=
  (t.translateX + t.scaleX * point.1, t.translateY + t.scaleY * point.2)

/-- A rule for the graph, which applies where the checkbox of the plot is checked. -/
structure ScaleRule where
  plot : Nat
  transform : Transform
  deriving DecidableEq

section Output

variable (config : OutputConfig)

def adjustedAverageResult (results : Nat → BitVec 64) (resultIndex : Nat) : ℚ :=
  let resultsTemp := (List.range config.runCount).map fun run =>
    results (config.flatIndex run resultIndex)
  let resultsTemp := resultsTemp.mergeSort fun left right => decide (left.toNat ≤ right.toNat)
  let kept := (resultsTemp.take (config.runCount - config.discardedRunsCount / 2)).drop
    (config.discardedRunsCount / 2)
  (kept.foldl (· + ·) 0#64).toNat / (config.runCount - config.discardedRunsCount : Nat)

def maxAdjustedAverageResult (results : Nat → BitVec 64) : ℚ :=
  (List.range config.resultCount).foldl (fun max resultIndex =>
    let adjustedAverage := adjustedAverageResult config results resultIndex
    if max < adjustedAverage then adjustedAverage else max) 0

def scaleRule (maxResult : Nat × ℚ) : ScaleRule where
  plot := maxResult.1
  transform := {
    translateX := 18
    translateY := 540
    scaleX := 972 / config.keyCount
    scaleY := -(540 / (maxResult.2 * 1.05)) }

/-- The rules in their order on the page. -/
def graphOut (sorter : Sorter fun left right : Nat × ℚ => left.2 < right.2) (plots : List Plot) :
    List ScaleRule :=
  let maxResults := plots.map fun plot => (plot.id, maxAdjustedAverageResult config plot.results)
  (sorter.sort maxResults).map (scaleRule config)

end Output

section Scale

variable (config : OutputConfig) (results : Nat → BitVec 64)

end Scale

section Cascade

variable (config : OutputConfig)
  (sorter : Sorter fun left right : Nat × ℚ => left.2 < right.2)

/-- One run with two measurements. -/
def twoMeasurements : OutputConfig where
  keyCount := 2
  keyCountMeasurementInterval := 1
  runCount := 1
  enabled _ := true
  keyCount_pos := by decide
  interval_pos := by decide
  interval_dvd := by decide
  discardedRunsCount := 0
  discarded_lt := by decide
  discarded_even := by decide

end Cascade

end HashBench.Driver
