import HashBench.Driver.Graph
import HashBench.Library.Minimum
import Mathlib.Data.Rat.Floor
import Mathlib.Algebra.Order.BigOperators.Group.Finset
import Mathlib.Tactic.Linarith

/-! A row of the heatmap. The totals of the shims are divided by the lowest of
them, and the ratio selects a colour. Numbers of type `double` are taken as
rationals. -/
namespace HashBench.Driver

open Minimum

/-- `std::numeric_limits<double>::max()`. -/
def doubleMax : ℚ := (2 ^ 53 - 1) * 2 ^ 971

/-- The conversion to `uint8_t`, which drops the fraction. It is undefined where
the result would be out of range. -/
def toUint8 (x : ℚ) : Option (BitVec 8) :=
  if -1 < x ∧ x < 256 then some (BitVec.ofInt 8 (if 0 ≤ x then ⌊x⌋ else ⌈x⌉)) else none

/-- An entry of the colour table. -/
structure Rgb where
  red : BitVec 8
  green : BitVec 8
  blue : BitVec 8

structure Cell where
  x : ℚ
  y : ℚ
  width : ℚ
  fill : Rgb
  normalizedTotal : ℚ
  whiteText : Bool
  dagger : Bool

def totalAdjustedAverageResult (config : OutputConfig) (benchmarkId : BenchmarkId)
    (results : Nat → BitVec 64) : ℚ :=
  if benchmarkId = .insertNonexisting ∨ benchmarkId = .reinsertAfterErasure then
    adjustedAverageResult config results (config.resultCount - 1)
  else
    (List.range config.resultCount).foldl (fun total result =>
      total + adjustedAverageResult config results result) 0

/-- The index into the colour table. -/
def colorIndex (normalizedTotal : ℚ) : Option (BitVec 8) :=
  toUint8 (min ((normalizedTotal - 1) / 9) 1 * 255)

section Row

variable {S : Type*} (total : S → ℚ)

def lowestTotal (shims : List S) : ℚ := lowest total doubleMax shims

def normalizedTotal (lowestTotal : ℚ) (shim : S) : ℚ := total shim / lowestTotal

variable (colors : Vector Rgb 256) (dagger : S → Bool)

def heatmapCellOut (row col : Nat) (cellWidth lowestTotal : ℚ) (shim : S) : Option Cell := do
  let normalizedTotal := normalizedTotal total lowestTotal shim
  let color ← colorIndex normalizedTotal
  pure {
    x := 200 + col * cellWidth
    y := 44 + row * 32
    width := cellWidth - 2
    fill := colors.get color.toFin
    normalizedTotal
    whiteText := decide (5 ≤ normalizedTotal)
    dagger := dagger shim }

/-- The cells of the enabled shims, in their order in `config.h`. -/
def heatmapRowOut (row : Nat) (cellWidth : ℚ) (shims : List S) : Option (List Cell) :=
  let lowest := lowestTotal total shims
  shims.zipIdx.mapM fun entry => heatmapCellOut total colors dagger row entry.2 cellWidth lowest
    entry.1

end Row

/-- A shim of the row. -/
structure Column where
  results : Nat → BitVec 64
  tombstoneLikeMechanism : Bool

/-- The row of a blueprint and a benchmark. -/
def heatmapRow (config : OutputConfig) (benchmarkId : BenchmarkId) (colors : Vector Rgb 256)
    (row : Nat) (cellWidth : ℚ) (shims : List Column) : Option (List Cell) :=
  heatmapRowOut (fun shim => totalAdjustedAverageResult config benchmarkId shim.results) colors
    (fun shim => (benchmarkId == .eraseExisting || benchmarkId == .reinsertAfterErasure) &&
      shim.tombstoneLikeMechanism) row cellWidth shims

section Color

variable {ratio ratio' : ℚ}

/-- A ratio of at least one has a colour. -/
theorem colorIndex_eq (h : 1 ≤ ratio) : ∃ color, colorIndex ratio = some color ∧
    (color.toNat : ℤ) = ⌊min ((ratio - 1) / 9) 1 * 255⌋ := by
  have hLow : 0 ≤ min ((ratio - 1) / 9) 1 * 255 :=
    mul_nonneg (le_min (div_nonneg (sub_nonneg.mpr h) (by norm_num)) zero_le_one) (by norm_num)
  have hHigh : min ((ratio - 1) / 9) 1 * 255 < 256 := by
    have hOne := min_le_right ((ratio - 1) / 9) 1
    linarith
  rw [colorIndex]
  generalize min ((ratio - 1) / 9) 1 * 255 = x at hLow hHigh
  have hFloor : 0 ≤ ⌊x⌋ ∧ ⌊x⌋ < 256 :=
    ⟨Int.floor_nonneg.mpr hLow, Int.floor_lt.mpr (by exact_mod_cast hHigh)⟩
  refine ⟨BitVec.ofInt 8 ⌊x⌋, ?_, ?_⟩
  · rw [toUint8, if_pos ⟨by linarith, hHigh⟩, if_pos hLow]
  · rw [BitVec.toNat_ofInt]
    omega

theorem colorIndex_one : colorIndex 1 = some 0#8 := by
  obtain ⟨color, hColor, hFloor⟩ := colorIndex_eq (le_refl 1)
  have hZero : min (((1 : ℚ) - 1) / 9) 1 * 255 = 0 := by norm_num
  rw [hZero, Int.floor_zero] at hFloor
  have hNil : color = 0#8 := BitVec.eq_of_toNat_eq (by exact_mod_cast hFloor)
  rw [hColor, hNil]

/-- The last colour is that of the ratios from ten on. -/
theorem colorIndex_eq_last (h : 1 ≤ ratio) : colorIndex ratio = some 255#8 ↔ 10 ≤ ratio := by
  obtain ⟨color, hColor, hFloor⟩ := colorIndex_eq h
  have hTop : ⌊min ((ratio - 1) / 9) 1 * 255⌋ = 255 ↔ 10 ≤ ratio := by
    have hOne := min_le_right ((ratio - 1) / 9) 1
    have hIff : 10 ≤ ratio ↔ 1 ≤ min ((ratio - 1) / 9) 1 := by
      rw [le_min_iff, le_div_iff₀ (by norm_num)]
      constructor
      · exact fun hTen => ⟨by linarith, le_refl 1⟩
      · exact fun hMin => by linarith [hMin.1]
    rw [hIff, Int.floor_eq_iff]
    push_cast
    constructor
    · exact fun hRange => by linarith [hRange.1]
    · exact fun hMin => ⟨by linarith, by linarith⟩
  rw [hColor, Option.some.injEq, ← hTop, ← hFloor]
  constructor
  · rintro rfl
    rfl
  · exact fun hNat => BitVec.eq_of_toNat_eq (by exact_mod_cast hNat)

theorem colorIndex_mono (h : 1 ≤ ratio) (hLe : ratio ≤ ratio') : ∃ color color',
    colorIndex ratio = some color ∧ colorIndex ratio' = some color' ∧
      color.toNat ≤ color'.toNat := by
  obtain ⟨color, hColor, hFloor⟩ := colorIndex_eq h
  obtain ⟨color', hColor', hFloor'⟩ := colorIndex_eq (h.trans hLe)
  refine ⟨color, color', hColor, hColor', ?_⟩
  have hDiv : (ratio - 1) / 9 ≤ (ratio' - 1) / 9 := by linarith
  have hMin := min_le_min_right 1 hDiv
  have hMono : ⌊min ((ratio - 1) / 9) 1 * 255⌋ ≤ ⌊min ((ratio' - 1) / 9) 1 * 255⌋ :=
    Int.floor_mono (by linarith)
  omega

end Color

section Ratio

variable {S : Type*} {total : S → ℚ} {shims : List S}

theorem doubleMax_pos : 0 < doubleMax := by
  norm_num [doubleMax]

theorem lowestTotal_pos (h : ∀ shim ∈ shims, 0 < total shim) : 0 < lowestTotal total shims := by
  rw [lowestTotal]
  rcases lowest_cases total doubleMax shims with hMax | ⟨_, hMem, hEq⟩
  · rw [hMax]
    exact doubleMax_pos
  · rw [← hEq]
    exact h _ hMem

theorem one_le_normalizedTotal (h : ∀ shim ∈ shims, 0 < total shim) {shim : S}
    (hMem : shim ∈ shims) : 1 ≤ normalizedTotal total (lowestTotal total shims) shim :=
  (one_le_div (lowestTotal_pos h)).mpr (lowest_le hMem)

/-- A shim whose total grows does not get a smaller ratio, also if it was the
fastest. -/
theorem normalizedTotal_le_of_le {total' : S → ℚ} (h : ∀ shim ∈ shims, 0 < total shim)
    (hMax : ∀ shim ∈ shims, total shim < doubleMax) {shim : S} (hMem : shim ∈ shims)
    (hLe : total shim ≤ total' shim)
    (hSame : ∀ other ∈ shims, other ≠ shim → total' other = total other) :
    normalizedTotal total (lowestTotal total shims) shim ≤
      normalizedTotal total' (lowestTotal total' shims) shim := by
  have hPos' (other : S) (hOther : other ∈ shims) : 0 < total' other := by
    by_cases hEq : other = shim
    · exact hEq ▸ (h shim hMem).trans_le hLe
    · exact hSame other hOther hEq ▸ h other hOther
  obtain ⟨fastest, hFastest, hLowest⟩ := lowest_attained hMax (List.ne_nil_of_mem hMem)
  have hLowest' : lowestTotal total' shims ≤ total' fastest := lowest_le hFastest
  have hLowest : lowestTotal total shims = total fastest := hLowest.symm
  rw [normalizedTotal, normalizedTotal, div_le_div_iff₀ (lowestTotal_pos h) (lowestTotal_pos hPos'),
    hLowest]
  by_cases hEq : fastest = shim
  · subst hEq
    rw [mul_comm (total' fastest)]
    exact mul_le_mul_of_nonneg_left hLowest' (h fastest hMem).le
  · rw [hSame fastest hFastest hEq] at hLowest'
    exact mul_le_mul hLe hLowest' (lowestTotal_pos hPos').le (hPos' shim hMem).le

end Ratio

section Output

variable {S : Type*} (total : S → ℚ) (shims : List S)

/-- A list of partial results that are all defined. -/
theorem mapM_eq_some {α β : Type*} {f : α → Option β} {g : α → β} {xs : List α}
    (h : ∀ x ∈ xs, f x = some (g x)) : xs.mapM f = some (xs.map g) := by
  induction xs with
  | nil => rfl
  | cons x xs ih =>
      rw [List.mapM_cons, h x List.mem_cons_self, ih fun y hy => h y (List.mem_cons_of_mem _ hy)]
      rfl

/-- What a row with these totals shows. -/
structure Normalised : Prop where
  attained : shims ≠ [] → ∃ shim ∈ shims, total shim = lowestTotal total shims
  lowest : ∀ shim ∈ shims, lowestTotal total shims ≤ total shim
  positive : 0 < lowestTotal total shims
  ratio : ∀ shim ∈ shims,
    normalizedTotal total (lowestTotal total shims) shim = total shim / lowestTotal total shims
  one_le : ∀ shim ∈ shims, 1 ≤ normalizedTotal total (lowestTotal total shims) shim
  fastest : ∀ shim ∈ shims, total shim = lowestTotal total shims →
    normalizedTotal total (lowestTotal total shims) shim = 1 ∧
    colorIndex (normalizedTotal total (lowestTotal total shims) shim) = some 0#8
  defined : ∀ shim ∈ shims, ∃ color,
    colorIndex (normalizedTotal total (lowestTotal total shims) shim) = some color ∧
    0 ≤ color.toNat ∧ color.toNat ≤ 255 ∧
    (color = 255#8 ↔ 10 ≤ normalizedTotal total (lowestTotal total shims) shim) ∧
    (color = 255#8 ↔ 10 * lowestTotal total shims ≤ total shim)
  monotone : ∀ shim ∈ shims, ∀ shim' ∈ shims, total shim ≤ total shim' → ∃ color color',
    colorIndex (normalizedTotal total (lowestTotal total shims) shim) = some color ∧
    colorIndex (normalizedTotal total (lowestTotal total shims) shim') = some color' ∧
    color.toNat ≤ color'.toNat
  raised : ∀ shim ∈ shims, ∀ total' : S → ℚ, total shim ≤ total' shim →
    (∀ other ∈ shims, other ≠ shim → total' other = total other) → ∃ color color',
    colorIndex (normalizedTotal total (lowestTotal total shims) shim) = some color ∧
    colorIndex (normalizedTotal total' (lowestTotal total' shims) shim) = some color' ∧
    color.toNat ≤ color'.toNat
  order : ∀ shims' : List S, shims.Perm shims' → ∀ shim,
    normalizedTotal total (lowestTotal total shims') shim =
      normalizedTotal total (lowestTotal total shims) shim

variable {total} {shims}

theorem normalised (hPos : ∀ shim ∈ shims, 0 < total shim)
    (hMax : ∀ shim ∈ shims, total shim < doubleMax) : Normalised total shims := by
  have hOne (shim : S) (hMem : shim ∈ shims) := one_le_normalizedTotal hPos hMem
  have hLowest := lowestTotal_pos hPos
  refine ⟨lowest_attained hMax, fun shim hMem => lowest_le hMem, hLowest, fun _ _ => rfl, hOne,
    fun shim hMem hFastest => ?_, fun shim hMem => ?_, fun shim hMem shim' _ hLe => ?_,
    fun shim hMem total' hLe hSame => ?_, fun shims' hPerm shim => ?_⟩
  · have hRatio : normalizedTotal total (lowestTotal total shims) shim = 1 := by
      rw [normalizedTotal, hFastest]
      exact div_self hLowest.ne'
    exact ⟨hRatio, hRatio ▸ colorIndex_one⟩
  · obtain ⟨color, hColor, -⟩ := colorIndex_eq (hOne shim hMem)
    have hLast : color = 255#8 ↔ 10 ≤ normalizedTotal total (lowestTotal total shims) shim := by
      rw [← colorIndex_eq_last (hOne shim hMem), hColor, Option.some.injEq]
    have hTen : 10 ≤ normalizedTotal total (lowestTotal total shims) shim ↔
        10 * lowestTotal total shims ≤ total shim := le_div_iff₀ hLowest
    exact ⟨color, hColor, Nat.zero_le _, Nat.le_of_lt_succ color.isLt, hLast, hLast.trans hTen⟩
  · exact colorIndex_mono (hOne shim hMem)
      (div_le_div_of_nonneg_right hLe hLowest.le)
  · exact colorIndex_mono (hOne shim hMem) (normalizedTotal_le_of_le hPos hMax hMem hLe hSame)
  · rw [lowestTotal, lowestTotal, lowest_perm hPerm]

/-- Every cell of a row is defined, with its own ratio and its colour. -/
theorem heatmapRowOut_eq (hPos : ∀ shim ∈ shims, 0 < total shim) (colors : Vector Rgb 256)
    (dagger : S → Bool) (row : Nat) (cellWidth : ℚ) :
    ∃ cells, heatmapRowOut total colors dagger row cellWidth shims = some cells ∧
      cells.map Cell.normalizedTotal =
        shims.map (normalizedTotal total (lowestTotal total shims)) ∧
      cells.map (fun cell => some cell.fill) = shims.map fun shim =>
        (colorIndex (normalizedTotal total (lowestTotal total shims) shim)).map fun color =>
          colors.get color.toFin := by
  let ratio (shim : S) := normalizedTotal total (lowestTotal total shims) shim
  let cell (entry : S × Nat) : Cell := {
    x := 200 + entry.2 * cellWidth
    y := 44 + row * 32
    width := cellWidth - 2
    fill := colors.get ((colorIndex (ratio entry.1)).getD 0#8).toFin
    normalizedTotal := ratio entry.1
    whiteText := decide (5 ≤ ratio entry.1)
    dagger := dagger entry.1 }
  have hColor (shim : S) (hMem : shim ∈ shims) :
      colorIndex (ratio shim) = some ((colorIndex (ratio shim)).getD 0#8) := by
    obtain ⟨color, hSome, -⟩ := colorIndex_eq (one_le_normalizedTotal hPos hMem)
    rw [show colorIndex (ratio shim) = some color from hSome]
    rfl
  have hFst {β : Type} (f : S → β) : shims.zipIdx.map (fun entry => f entry.1) = shims.map f := by
    rw [← List.zipIdx_map_fst 0 shims, List.map_map, List.zipIdx_map_fst]
    rfl
  refine ⟨shims.zipIdx.map cell, mapM_eq_some fun entry hEntry => ?_, ?_, ?_⟩
  · have hMem : entry.1 ∈ shims := List.fst_mem_of_mem_zipIdx hEntry
    rw [heatmapCellOut, show colorIndex (normalizedTotal total (lowestTotal total shims) entry.1) =
      _ from hColor entry.1 hMem]
    rfl
  · rw [List.map_map]
    exact hFst ratio
  · rw [List.map_map]
    refine (hFst fun shim => some (colors.get ((colorIndex (ratio shim)).getD 0#8).toFin)).trans ?_
    refine List.map_congr_left fun shim hMem => ?_
    change _ = (colorIndex (ratio shim)).map _
    rw [hColor shim hMem]
    rfl

/-- The sum of all data points, in the order in which they are added. -/
theorem totalAdjustedAverageResult_eq (config : OutputConfig) (benchmarkId : BenchmarkId)
    (results : Nat → BitVec 64) : totalAdjustedAverageResult config benchmarkId results =
      if benchmarkId = .insertNonexisting ∨ benchmarkId = .reinsertAfterErasure then
        adjustedAverageResult config results (config.resultCount - 1)
      else ∑ result ∈ Finset.range config.resultCount,
        adjustedAverageResult config results result := by
  have hSum (count : Nat) : (List.range count).foldl (fun total result =>
      total + adjustedAverageResult config results result) 0 =
        ∑ result ∈ Finset.range count, adjustedAverageResult config results result := by
    induction count with
    | zero => rfl
    | succ count ih =>
        rw [List.range_succ, List.foldl_append, ih, Finset.sum_range_succ]
        rfl
  rw [totalAdjustedAverageResult, hSum]

end Output

/-- The ratios and colours of a row, for shims with any positive totals. The
totals of the program are its last data points, or the sums of them. -/
theorem heatmap_row_normalised {S : Type*} (total : S → ℚ) (shims : List S)
    (h : ∀ shim ∈ shims, 0 < total shim ∧ total shim < doubleMax) :
    Normalised total shims ∧
    (∀ (colors : Vector Rgb 256) (dagger : S → Bool) (row : Nat) (cellWidth : ℚ), ∃ cells,
      heatmapRowOut total colors dagger row cellWidth shims = some cells ∧
      cells.map Cell.normalizedTotal =
        shims.map (normalizedTotal total (lowestTotal total shims)) ∧
      cells.map (fun cell => some cell.fill) = shims.map fun shim =>
        (colorIndex (normalizedTotal total (lowestTotal total shims) shim)).map fun color =>
          colors.get color.toFin) ∧
    ∀ (config : OutputConfig) (benchmarkId : BenchmarkId) (results : Nat → BitVec 64),
      totalAdjustedAverageResult config benchmarkId results =
        if benchmarkId = .insertNonexisting ∨ benchmarkId = .reinsertAfterErasure then
          adjustedAverageResult config results (config.resultCount - 1)
        else ∑ result ∈ Finset.range config.resultCount,
          adjustedAverageResult config results result :=
  ⟨normalised (fun shim hMem => (h shim hMem).1) fun shim hMem => (h shim hMem).2,
    heatmapRowOut_eq fun shim hMem => (h shim hMem).1, totalAdjustedAverageResult_eq⟩

/-- Three shims whose data points are constant. -/
def threeColumns : List Column :=
  [⟨fun _ => 6#64, false⟩, ⟨fun _ => 4#64, true⟩, ⟨fun _ => 40#64, true⟩]

def columnTotal (shim : Column) : ℚ :=
  totalAdjustedAverageResult twoMeasurements .eraseExisting shim.results

/-- The last ratio is ten. -/
theorem heatmap_row_normalised_threeColumns :
    Normalised columnTotal threeColumns ∧
    ∀ (colors : Vector Rgb 256) (row : Nat) (cellWidth : ℚ), ∃ cells,
      heatmapRow twoMeasurements .eraseExisting colors row cellWidth threeColumns = some cells ∧
      cells.map Cell.normalizedTotal =
        threeColumns.map (normalizedTotal columnTotal (lowestTotal columnTotal threeColumns)) := by
  have hTotals : ∀ shim ∈ threeColumns, 0 < columnTotal shim ∧ columnTotal shim < doubleMax := by
    decide +kernel
  obtain ⟨hNormalised, hRow, -⟩ := heatmap_row_normalised columnTotal threeColumns hTotals
  refine ⟨hNormalised, fun colors row cellWidth => ?_⟩
  obtain ⟨cells, hCells, hRatios, -⟩ := hRow colors (fun shim =>
    (BenchmarkId.eraseExisting == .eraseExisting ||
      BenchmarkId.eraseExisting == .reinsertAfterErasure) && shim.tombstoneLikeMechanism)
    row cellWidth
  exact ⟨cells, hCells, hRatios⟩

end HashBench.Driver
