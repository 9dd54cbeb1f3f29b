import HashBench.Driver.Benchmark
import HashBench.Library.Contract
import Mathlib.Data.Set.Image
import Mathlib.Order.Interval.Set.Defs

/-! The table contents that the driver measures. Over any table that is a
finite map, every loop of the driver reads keys that were generated, and the
benchmarks find in the table what their names say. -/
namespace HashBench.Driver

open Contract Set

variable {K V T I G : Type}

/-- The indices that a walk over `lo..hi` visits, from `l` on. -/
def visited (lo hi : Nat) : Nat → Nat → List Nat
  | 0, _ => []
  | left + 1, l => l :: visited lo hi left (nextIndex lo hi l)

theorem nextIndex_mem {lo hi l : Nat} (hl : lo ≤ l ∧ l < hi) :
    lo ≤ nextIndex lo hi l ∧ nextIndex lo hi l < hi := by
  unfold nextIndex
  split <;> omega

/-- A walk stays in its range however often it wraps around. -/
theorem visited_mem {lo hi l : Nat} (hl : lo ≤ l ∧ l < hi) (left : Nat) :
    ∀ a ∈ visited lo hi left l, lo ≤ a ∧ a < hi := by
  induction left generalizing l with
  | zero => simp [visited]
  | succ left ih =>
      intro a ha
      rcases List.mem_cons.mp ha with rfl | hMem
      · exact hl
      · exact ih (nextIndex_mem hl) a hMem

theorem window_eq_forM (step : Nat → Run T G PUnit) (lo hi left l : Nat) :
    window step lo hi left l = (visited lo hi left l).forM step := by
  induction left generalizing l with
  | zero => rfl
  | succ left ih =>
      simp only [window, ih]
      rfl

theorem sizePred_eq {n : Nat} (hPos : 0 < n) (hLt : n < 2 ^ 64) : sizePred n = n - 1 := by
  unfold sizePred
  omega

namespace Macros

variable (config : Macros)

theorem resultCount_pos : 0 < config.resultCount :=
  Nat.div_pos (Nat.le_of_dvd config.keyCount_pos (Nat.dvd_of_mod_eq_zero config.interval_dvd))
    config.interval_pos

theorem keyCount_lt : config.keyCount < config.uniqueKeyCount := by
  have hPos := config.resultCount_pos
  unfold uniqueKeyCount
  unfold resultCount at hPos
  omega

theorem flatIndex_lt {run r : Nat} (hRun : run < config.runCount) (hr : r < config.resultCount) :
    config.flatIndex run r < config.resultsSize :=
  calc config.flatIndex run r
      < run * config.resultCount + config.resultCount := Nat.add_lt_add_left hr _
    _ = (run + 1) * config.resultCount := (Nat.succ_mul ..).symm
    _ ≤ config.resultsSize := Nat.mul_le_mul_right _ hRun

end Macros

/-- The table stores the generated keys of these indices and no others. -/
def StoresKeys (d : Setup K T I G) (Stores : T → Set K → Prop) (t : T) (indices : Set Nat) : Prop :=
  Stores t (d.keys '' indices)

/-- What a record of the log says of the table. -/
def Event.Expected (d : Setup K T I G) (Stores : T → Set K → Prop) : Event T → Prop
  | .table .reinsertAfterErasure .started _ t => StoresKeys d Stores t {d.config.keyCount - 1}
  | .table .reinsertAfterErasure _ i t =>
      StoresKeys d Stores t (Iio i ∪ {d.config.keyCount - 1})
  | .table .eraseExisting .finished i t =>
      ∃ l < i, StoresKeys d Stores t (Iio i \ {a | a ∈ visited 0 i 1000 l})
  | .table _ _ i t => StoresKeys d Stores t (Iio i)
  | .found .getExisting valid => valid = true
  | .found _ valid => valid = false
  | .assigned .. => True

/-- The table stores these keys, all of them generated, and every record so far
is as expected. -/
structure Contents (d : Setup K T I G) (Stores : T → Set K → Prop) (indices : Set Nat)
    (s : State T G) : Prop where
  indices_lt : ∀ a ∈ indices, a < d.config.uniqueKeyCount
  stored : StoresKeys d Stores s.table indices
  expected : ∀ e ∈ s.log, e.Expected d Stores

section Calls

variable {bp : Blueprint K V} {d : Setup K T I G} {Stores : T → Set K → Prop}
  {indices : Set Nat} {index : Nat}

theorem shuffledUniqueKey_eq (h : index < d.config.uniqueKeyCount) :
    shuffledUniqueKey d index = pure (d.keys index) := if_pos h

theorem results_eq {run resultIndex : Nat} (hRun : run < d.config.runCount)
    (h : resultIndex < d.config.resultCount) :
    results d run resultIndex = pure (d.config.flatIndex run resultIndex) :=
  if_pos (d.config.flatIndex_lt hRun h)

theorem Contents.uniform {lo hi : Nat} (h : lo ≤ hi) :
    Meets (Contents d Stores indices) (uniform d lo hi) fun draw s =>
      (lo ≤ draw ∧ draw ≤ hi) ∧ Contents d Stores indices s := by
  rw [Driver.uniform, if_pos h]
  intro s hs
  exact ⟨_, _, rfl, d.generator.mem _ h, hs.indices_lt, hs.stored, hs.expected⟩

theorem Contents.note (benchmark : BenchmarkId) (moment : Moment) (i : Nat)
    (hExpected : ∀ t, StoresKeys d Stores t indices →
      (Event.table benchmark moment i t).Expected d Stores) :
    Meets (Contents d Stores indices) (note benchmark moment i) fun _ =>
      Contents d Stores indices := by
  refine Meets.update fun s hs => ⟨hs.indices_lt, hs.stored, fun e he => ?_⟩
  rcases List.mem_append.mp he with hOld | hNew
  · exact hs.expected e hOld
  · obtain rfl := List.mem_singleton.mp hNew
    exact hExpected s.table hs.stored

theorem Contents.noteAssigned (benchmark : BenchmarkId) (index i : Nat) :
    Meets (Contents d Stores indices) (noteAssigned benchmark index i) fun _ =>
      Contents d Stores indices := by
  refine Meets.update fun s hs => ⟨hs.indices_lt, hs.stored, fun e he => ?_⟩
  rcases List.mem_append.mp he with hOld | hNew
  · exact hs.expected e hOld
  · obtain rfl := List.mem_singleton.mp hNew
    exact trivial

theorem Contents.noteFound (Stores : T → Set K → Prop) (indices : Set Nat)
    {benchmark : BenchmarkId} {itr : I} (reads : T → Prop) :
    Meets (fun s => reads s.table ∧
        (Event.found benchmark (d.shim.isItrValid s.table itr)).Expected d Stores ∧
          Contents d Stores indices s)
      (noteFound d benchmark itr) fun _ s => reads s.table ∧ Contents d Stores indices s := by
  refine Meets.update fun s hs => ⟨hs.1, hs.2.2.indices_lt, hs.2.2.stored, fun e he => ?_⟩
  rcases List.mem_append.mp he with hOld | hNew
  · exact hs.2.2.expected e hOld
  · obtain rfl := List.mem_singleton.mp hNew
    exact hs.2.1

theorem Contents.createTable (hShim : d.shim.IsMap bp Stores) {before : State T G → Prop}
    (h : ∀ s, before s → ∀ e ∈ s.log, e.Expected d Stores) :
    Meets before (createTable d) fun _ => Contents d Stores (Iio 0) := by
  refine Meets.update fun s hs => ⟨fun a ha => absurd ha (Nat.not_lt_zero a), ?_, h s hs⟩
  show Stores _ (d.keys '' Iio 0)
  have hNone : d.keys '' Iio 0 = ∅ := by
    ext key
    simp
  exact hNone ▸ hShim.create

variable (hShim : d.shim.IsMap bp Stores)
  (hKeys : ∀ a b, a < d.config.uniqueKeyCount → b < d.config.uniqueKeyCount → a ≠ b →
    bp.cmprKeys (d.keys a) (d.keys b) = false)

include hKeys in
/-- The stored keys that do not match a generated key are the other ones. -/
theorem image_unmatched (hIndices : ∀ a ∈ indices, a < d.config.uniqueKeyCount)
    (hIndex : index < d.config.uniqueKeyCount) :
    {k ∈ d.keys '' indices | bp.cmprKeys (d.keys index) k = false} =
      d.keys '' (indices \ {index}) := by
  ext key
  constructor
  · rintro ⟨⟨a, ha, rfl⟩, hNe⟩
    refine ⟨a, ⟨ha, fun hEq => ?_⟩, rfl⟩
    rw [mem_singleton_iff.mp hEq, bp.cmprKeys_refl] at hNe
    cases hNe
  · rintro ⟨a, ⟨ha, hNe⟩, rfl⟩
    exact ⟨⟨a, ha, rfl⟩, hKeys _ _ hIndex (hIndices a ha) (Ne.symm hNe)⟩

include hKeys in
/-- A stored key that matches a generated key is that key. -/
theorem mem_of_matches (hIndices : ∀ a ∈ indices, a < d.config.uniqueKeyCount)
    (hIndex : index < d.config.uniqueKeyCount) {key : K} (hMem : key ∈ d.keys '' indices)
    (hMatch : bp.cmprKeys (d.keys index) key = true) :
    index ∈ indices ∧ key = d.keys index := by
  obtain ⟨a, ha, rfl⟩ := hMem
  by_cases hEq : index = a
  · subst hEq
    exact ⟨ha, rfl⟩
  · rw [hKeys _ _ hIndex (hIndices a ha) hEq] at hMatch
    cases hMatch

include hShim hKeys

theorem Contents.insertKey (hIndex : index < d.config.uniqueKeyCount) :
    Meets (Contents d Stores indices) (insertKey d index) fun _ =>
      Contents d Stores (insert index indices) := by
  rw [Driver.insertKey, shuffledUniqueKey_eq hIndex, pure_bind]
  refine Meets.update fun s hs => ⟨?_, ?_, hs.expected⟩
  · rintro a (rfl | ha)
    · exact hIndex
    · exact hs.indices_lt a ha
  · show Stores _ (d.keys '' insert index indices)
    rcases hShim.insert (d.keys index) hs.stored with hReplaced | ⟨⟨key, hMem, hMatch⟩, hKept⟩
    · rw [image_unmatched hKeys hs.indices_lt hIndex] at hReplaced
      rwa [← insert_sdiff_singleton, image_insert_eq]
    · rwa [insert_eq_of_mem (mem_of_matches hKeys hs.indices_lt hIndex hMem hMatch).1]

theorem Contents.eraseKey (hIndex : index < d.config.uniqueKeyCount) :
    Meets (Contents d Stores indices) (eraseKey d index) fun _ =>
      Contents d Stores (indices \ {index}) := by
  rw [Driver.eraseKey, shuffledUniqueKey_eq hIndex, pure_bind]
  refine Meets.update fun s hs => ⟨fun a ha => hs.indices_lt a ha.1, ?_, hs.expected⟩
  show Stores _ (d.keys '' (indices \ {index}))
  rw [← image_unmatched hKeys hs.indices_lt hIndex]
  exact hShim.erase (d.keys index) hs.stored

/-- A search finds the key of its index exactly if the table stores it. -/
theorem Contents.findKey (hIndex : index < d.config.uniqueKeyCount) :
    Meets (Contents d Stores indices) (findKey d index) fun itr s =>
      (index ∈ indices → d.shim.isItrValid s.table itr = true ∧
          d.shim.getKeyFromItr s.table itr = some (d.keys index)) ∧
        (index ∉ indices → d.shim.isItrValid s.table itr = false) ∧
        Contents d Stores indices s := by
  rw [Driver.findKey, shuffledUniqueKey_eq hIndex, pure_bind]
  intro s hs
  obtain ⟨hStored, hFound⟩ := hShim.find (d.keys index) hs.stored
  refine ⟨_, _, rfl, ?_, ?_, hs.indices_lt, hStored, hs.expected⟩
  · intro hMem
    rcases hFound with ⟨key, hKey, hMatch, hValid, hRead⟩ | ⟨hNone, _⟩
    · obtain ⟨_, rfl⟩ := mem_of_matches hKeys hs.indices_lt hIndex hKey hMatch
      exact ⟨hValid, hRead⟩
    · have hSelf := hNone _ (mem_image_of_mem d.keys hMem)
      rw [bp.cmprKeys_refl] at hSelf
      cases hSelf
  · intro hAbsent
    rcases hFound with ⟨key, hKey, hMatch, _⟩ | ⟨_, hInvalid⟩
    · exact absurd (mem_of_matches hKeys hs.indices_lt hIndex hKey hMatch).1 hAbsent
    · exact hInvalid

end Calls

section Loops

variable {bp : Blueprint K V} {d : Setup K T I G} {Stores : T → Set K → Prop} {run : Nat}

/-- A loop that leaves the stored keys alone, whichever it visits. -/
theorem Contents.forM_keep {indices : Set Nat} {step : Nat → Run T G PUnit} {path : List Nat}
    (hStep : ∀ l ∈ path, Meets (Contents d Stores indices) (step l) fun _ =>
      Contents d Stores indices) :
    Meets (Contents d Stores indices) (path.forM step) fun _ => Contents d Stores indices :=
  Meets.forM (fun _ => Contents d Stores indices) fun l _ hl => hStep l hl

/-- The result index of `i` keys, where an interval ends. -/
theorem resultIndex_lt {i : Nat} (hPos : 0 < i) (hLe : i ≤ d.config.keyCount)
    (hEnd : i % d.config.keyCountMeasurementInterval = 0) :
    sizePred (i / d.config.keyCountMeasurementInterval) < d.config.resultCount := by
  have hDiv : 0 < i / d.config.keyCountMeasurementInterval :=
    Nat.div_pos (Nat.le_of_dvd hPos (Nat.dvd_of_mod_eq_zero hEnd)) d.config.interval_pos
  have hTotal := d.config.total_lt
  have hLess : i / d.config.keyCountMeasurementInterval ≤ i := Nat.div_le_self ..
  rw [sizePred_eq hDiv (by omega)]
  have hMono : i / d.config.keyCountMeasurementInterval ≤ d.config.resultCount :=
    Nat.div_le_div_right hLe
  omega

/-- The outer loop of a block, with `inv i` before key `i` is inserted. -/
theorem meets_grow (inv : Nat → State T G → Prop) {measure : Nat → Run T G PUnit}
    (hInsert : ∀ i < d.config.keyCount, Meets (inv i) (insertKey d i) fun _ => inv (i + 1))
    (hMeasure : ∀ i, 0 < i → i ≤ d.config.keyCount →
      i % d.config.keyCountMeasurementInterval = 0 →
        Meets (inv i) (measure i) fun _ => inv i)
    {i j : Nat} (hLe : i ≤ d.config.keyCount)
    (hj : i % d.config.keyCountMeasurementInterval = j) :
    Meets (inv i) (grow d measure i j) fun _ => inv d.config.keyCount := by
  induction hLeft : d.config.keyCount - i generalizing i j with
  | zero =>
      obtain rfl : i = d.config.keyCount := by omega
      rw [grow, if_neg (Nat.lt_irrefl _)]
      exact Meets.ret fun _ => id
  | succ left ih =>
      have hi : i < d.config.keyCount := by omega
      rw [grow, if_pos hi]
      refine (hInsert i hi).seq ?_
      by_cases hEnd : j + 1 = d.config.keyCountMeasurementInterval
      · rw [if_pos hEnd]
        have hMod : (i + 1) % d.config.keyCountMeasurementInterval = 0 := by
          rw [← Nat.mod_add_mod, hj, hEnd, Nat.mod_self]
        exact (hMeasure (i + 1) i.succ_pos hi hMod).seq (ih hi hMod (by omega))
      · rw [if_neg hEnd]
        have hLt := Nat.mod_lt i d.config.interval_pos
        have hMod : (i + 1) % d.config.keyCountMeasurementInterval = j + 1 := by
          rw [← Nat.mod_add_mod, hj]
          exact Nat.mod_eq_of_lt (by omega)
        exact ih hi hMod (by omega)

/-- The result that is assigned exists, and its record is as expected. -/
theorem Contents.assignResult {benchmark : BenchmarkId} {i : Nat} {indices : Set Nat}
    (hRun : run < d.config.runCount) (hPos : 0 < i) (hLe : i ≤ d.config.keyCount)
    (hEnd : i % d.config.keyCountMeasurementInterval = 0)
    (hFinished : ∀ t, StoresKeys d Stores t indices →
      (Event.table benchmark .finished i t).Expected d Stores) :
    Meets (Contents d Stores indices) (assignResult d run benchmark i) fun _ =>
      Contents d Stores indices := by
  rw [Driver.assignResult, results_eq hRun (resultIndex_lt hPos hLe hEnd), pure_bind]
  exact (Contents.note benchmark .finished i hFinished).seq (Contents.noteAssigned benchmark _ i)

/-- A timed stretch writes a result that exists, and its records are as expected. -/
theorem Contents.timed {benchmark : BenchmarkId} {i : Nat} {indices after : Set Nat}
    {body : Run T G PUnit} (hRun : run < d.config.runCount) (hPos : 0 < i)
    (hLe : i ≤ d.config.keyCount) (hEnd : i % d.config.keyCountMeasurementInterval = 0)
    (hStarted : ∀ t, StoresKeys d Stores t indices →
      (Event.table benchmark .started i t).Expected d Stores)
    (hBody : Meets (Contents d Stores indices) body fun _ => Contents d Stores after)
    (hFinished : ∀ t, StoresKeys d Stores t after →
      (Event.table benchmark .finished i t).Expected d Stores) :
    Meets (Contents d Stores indices) (timed d run benchmark i body) fun _ =>
      Contents d Stores after :=
  (Contents.note benchmark .started i hStarted).seq
    (hBody.seq (Contents.assignResult hRun hPos hLe hEnd hFinished))

theorem meets_ifEnabled {pre : State T G → Prop} {benchmark : BenchmarkId}
    {body : Run T G PUnit}
    (h : d.config.enabled benchmark = true → Meets pre body fun _ => pre) :
    Meets pre (ifEnabled d benchmark body) fun _ => pre := by
  unfold ifEnabled
  split
  · exact h ‹_›
  · exact Meets.ret fun _ => id

variable (hShim : d.shim.IsMap bp Stores)
  (hKeys : ∀ a b, a < d.config.uniqueKeyCount → b < d.config.uniqueKeyCount → a ≠ b →
    bp.cmprKeys (d.keys a) (d.keys b) = false)

include hShim hKeys

/-- Inserting along a path adds the keys of the path. -/
theorem Contents.forM_insert {indices : Set Nat} {path : List Nat}
    (hPath : ∀ a ∈ path, a < d.config.uniqueKeyCount) :
    Meets (Contents d Stores indices) (path.forM (Driver.insertKey d)) fun _ =>
      Contents d Stores (indices ∪ {a | a ∈ path}) := by
  induction path generalizing indices with
  | nil => exact Meets.ret fun s hs => by simpa using hs
  | cons l path ih =>
      refine (Contents.insertKey hShim hKeys (hPath l List.mem_cons_self)).seq
        ((ih fun a ha => hPath a (List.mem_cons_of_mem l ha)).weaken (fun _ => id) fun _ s hs => ?_)
      have hSet : indices ∪ {a | a ∈ l :: path} = insert l indices ∪ {a | a ∈ path} := by
        ext a
        simp only [mem_union, mem_ofPred_eq, List.mem_cons, mem_insert_iff]
        tauto
      exact hSet ▸ hs

/-- Erasing along a path removes the keys of the path. -/
theorem Contents.forM_erase {indices : Set Nat} {path : List Nat}
    (hPath : ∀ a ∈ path, a < d.config.uniqueKeyCount) :
    Meets (Contents d Stores indices) (path.forM (Driver.eraseKey d)) fun _ =>
      Contents d Stores (indices \ {a | a ∈ path}) := by
  induction path generalizing indices with
  | nil => exact Meets.ret fun s hs => by simpa using hs
  | cons l path ih =>
      refine (Contents.eraseKey hShim hKeys (hPath l List.mem_cons_self)).seq
        ((ih fun a ha => hPath a (List.mem_cons_of_mem l ha)).weaken (fun _ => id) fun _ s hs => ?_)
      have hSet : indices \ {a | a ∈ l :: path} = (indices \ {l}) \ {a | a ∈ path} := by
        ext a
        simp only [mem_sdiff, mem_ofPred_eq, List.mem_cons, mem_singleton_iff]
        tauto
      exact hSet ▸ hs

theorem Contents.insertNext {i : Nat} (hi : i < d.config.keyCount) :
    Meets (Contents d Stores (Iio i)) (Driver.insertKey d i) fun _ =>
      Contents d Stores (Iio (i + 1)) := by
  refine (Contents.insertKey hShim hKeys (hi.trans d.config.keyCount_lt)).weaken (fun _ => id)
    fun _ s hs => ?_
  have hSet : insert i (Iio i) = Iio (i + 1) := by
    ext a
    simp only [mem_insert_iff, mem_Iio]
    omega
  exact hSet ▸ hs

end Loops

section Blocks

variable {bp : Blueprint K V} {d : Setup K T I G} {Stores : T → Set K → Prop} {run i : Nat}
  (hShim : d.shim.IsMap bp Stores)
  (hKeys : ∀ a b, a < d.config.uniqueKeyCount → b < d.config.uniqueKeyCount → a ≠ b →
    bp.cmprKeys (d.keys a) (d.keys b) = false)
  (hRun : run < d.config.runCount)

/-- The records so far are as expected. -/
def LogExpected (d : Setup K T I G) (Stores : T → Set K → Prop) (s : State T G) : Prop :=
  ∀ e ∈ s.log, e.Expected d Stores

/-- A position among the keys inserted so far. -/
theorem meets_existing {next : Nat → Run T G PUnit} {indices : Set Nat} (hPos : 0 < i)
    (hLe : i ≤ d.config.keyCount)
    (h : ∀ l < i, Meets (Contents d Stores indices) (next l) fun _ => Contents d Stores indices) :
    Meets (Contents d Stores indices) (uniform d 0 (sizePred i) >>= next) fun _ =>
      Contents d Stores indices := by
  have hTotal := d.config.total_lt
  refine (Contents.uniform (Nat.zero_le _)).bind fun l => Meets.assume fun hDraw => h l ?_
  rw [sizePred_eq hPos (by omega)] at hDraw
  omega

/-- A position among the keys that are never inserted. -/
theorem meets_nonexisting {next : Nat → Run T G PUnit} {indices : Set Nat}
    (h : ∀ l, d.config.keyCount ≤ l → l < d.config.uniqueKeyCount →
      Meets (Contents d Stores indices) (next l) fun _ => Contents d Stores indices) :
    Meets (Contents d Stores indices)
      (uniform d d.config.keyCount (sizePred d.config.uniqueKeyCount) >>= next) fun _ =>
        Contents d Stores indices := by
  have hLess := d.config.keyCount_lt
  have hTotal : d.config.uniqueKeyCount < 2 ^ 31 := d.config.total_lt
  rw [sizePred_eq (by omega) (by omega)]
  exact (Contents.uniform (by omega)).bind fun l => Meets.assume fun hDraw =>
    h l hDraw.1 (by omega)

theorem visited_existing {l : Nat} (hl : l < i) (left : Nat) :
    {a | a ∈ visited 0 i left l} ⊆ Iio i :=
  fun a ha => (visited_mem ⟨Nat.zero_le l, hl⟩ left a ha).2

include hShim hKeys hRun

theorem Contents.insertExisting (hPos : 0 < i) (hLe : i ≤ d.config.keyCount)
    (hEnd : i % d.config.keyCountMeasurementInterval = 0) :
    Meets (Contents d Stores (Iio i)) (insertExisting d run i) fun _ =>
      Contents d Stores (Iio i) := by
  refine meets_existing hPos hLe fun l hl =>
    Contents.timed hRun hPos hLe hEnd (fun _ => id) ?_ (fun _ => id)
  have hPath := visited_existing hl 1000
  have hLess := d.config.keyCount_lt
  rw [window_eq_forM]
  refine (Contents.forM_insert hShim hKeys fun a ha => ?_).weaken (fun _ => id) fun _ s hs => ?_
  · have hBelow : a < i := hPath ha
    omega
  · rwa [union_eq_self_of_subset_right hPath] at hs

theorem Contents.eraseNonexisting (hPos : 0 < i) (hLe : i ≤ d.config.keyCount)
    (hEnd : i % d.config.keyCountMeasurementInterval = 0) :
    Meets (Contents d Stores (Iio i)) (eraseNonexisting d run i) fun _ =>
      Contents d Stores (Iio i) := by
  refine meets_nonexisting fun l hGe hLt =>
    Contents.timed hRun hPos hLe hEnd (fun _ => id) ?_ (fun _ => id)
  have hPath := visited_mem ⟨hGe, hLt⟩ 1000
  rw [window_eq_forM]
  refine (Contents.forM_erase hShim hKeys fun a ha => (hPath a ha).2).weaken (fun _ => id)
    fun _ s hs => ?_
  have hSet : Iio i \ {a | a ∈ visited d.config.keyCount d.config.uniqueKeyCount 1000 l} =
      Iio i := by
    ext a
    refine ⟨And.left, fun ha => ⟨ha, fun hMem => ?_⟩⟩
    have hAbove := (hPath a hMem).1
    have hBelow : a < i := ha
    omega
  rwa [hSet] at hs

omit hRun in
/-- A search for a key of the table returns that key. The exit is not taken. -/
theorem Contents.getExistingStep [DecidableEq K] {indices : Set Nat} {l : Nat}
    (hl : l ∈ indices) (hLt : l < d.config.uniqueKeyCount) :
    Meets (Contents d Stores indices) (getExistingStep d l) fun _ =>
      Contents d Stores indices := by
  refine (Contents.findKey hShim hKeys hLt).bind fun itr => ?_
  refine Meets.seq ((Contents.noteFound Stores indices fun t =>
    d.shim.getKeyFromItr t itr = some (d.keys l)).of_pre fun s hs => ?_) (Meets.read fun s hs => ?_)
  · obtain ⟨hFound, _, hContents⟩ := hs
    exact ⟨(hFound hl).2, (hFound hl).1, hContents⟩
  · rw [hs.1]
    simp only [shuffledUniqueKey_eq hLt, pure_bind, ne_eq, not_true_eq_false, if_false]
    exact Meets.ret fun s' hEq => hEq ▸ hs.2

omit hRun in
/-- A search for a key that was never inserted finds none. -/
theorem Contents.getNonexistingStep {indices : Set Nat} {l : Nat} (hl : l ∉ indices)
    (hLt : l < d.config.uniqueKeyCount) :
    Meets (Contents d Stores indices) (getNonexistingStep d l) fun _ =>
      Contents d Stores indices := by
  refine (Contents.findKey hShim hKeys hLt).bind fun itr =>
    (Contents.noteFound Stores indices fun _ => True).weaken (fun s hs => ?_) fun _ _ => And.right
  obtain ⟨_, hNone, hContents⟩ := hs
  exact ⟨trivial, hNone hl, hContents⟩

theorem Contents.getExisting [DecidableEq K] (hPos : 0 < i) (hLe : i ≤ d.config.keyCount)
    (hEnd : i % d.config.keyCountMeasurementInterval = 0) :
    Meets (Contents d Stores (Iio i)) (getExisting d run i) fun _ =>
      Contents d Stores (Iio i) := by
  refine meets_existing hPos hLe fun l hl =>
    Contents.timed hRun hPos hLe hEnd (fun _ => id) ?_ (fun _ => id)
  have hPath := visited_existing hl 1000
  have hLess := d.config.keyCount_lt
  rw [window_eq_forM]
  refine Contents.forM_keep fun a ha => Contents.getExistingStep hShim hKeys (hPath ha) ?_
  have hBelow : a < i := hPath ha
  omega

theorem Contents.getNonexisting (hPos : 0 < i) (hLe : i ≤ d.config.keyCount)
    (hEnd : i % d.config.keyCountMeasurementInterval = 0) :
    Meets (Contents d Stores (Iio i)) (getNonexisting d run i) fun _ =>
      Contents d Stores (Iio i) := by
  refine meets_nonexisting fun l hGe hLt =>
    Contents.timed hRun hPos hLe hEnd (fun _ => id) ?_ (fun _ => id)
  have hPath := visited_mem ⟨hGe, hLt⟩ 1000
  rw [window_eq_forM]
  refine Contents.forM_keep fun a ha =>
    Contents.getNonexistingStep hShim hKeys (fun hBelow => ?_) (hPath a ha).2
  exact Nat.not_lt_of_le (hLe.trans (hPath a ha).1) hBelow

/-- The erased keys, and only they, are missing until they are inserted again. -/
theorem Contents.eraseRound (hPos : 0 < i) (hLe : i ≤ d.config.keyCount)
    (hEnd : i % d.config.keyCountMeasurementInterval = 0) :
    Meets (Contents d Stores (Iio i)) (Driver.uniform d 0 (sizePred i) >>= fun eraseKeysBegin => do
      Driver.timed d run .eraseExisting i (window (Driver.eraseKey d) 0 i 1000 eraseKeysBegin)
      window (Driver.insertKey d) 0 i 1000 eraseKeysBegin
      Driver.note .eraseExisting .restored i) fun _ => Contents d Stores (Iio i) := by
  refine meets_existing hPos hLe fun l hl => ?_
  have hPath := visited_existing hl 1000
  have hLess := d.config.keyCount_lt
  have hLt : ∀ a ∈ visited 0 i 1000 l, a < d.config.uniqueKeyCount := fun a ha => by
    have hBelow : a < i := hPath ha
    omega
  simp only [window_eq_forM]
  have hErase : Meets (Contents d Stores (Iio i)) (Driver.timed d run .eraseExisting i
      ((visited 0 i 1000 l).forM (Driver.eraseKey d))) fun _ =>
        Contents d Stores (Iio i \ {a | a ∈ visited 0 i 1000 l}) :=
    Contents.timed hRun hPos hLe hEnd (fun _ => id) (Contents.forM_erase hShim hKeys hLt)
      fun t hStores => ⟨l, hl, hStores⟩
  refine hErase.seq (((Contents.forM_insert hShim hKeys hLt).weaken (fun _ => id) fun _ s hs => ?_).seq
    (Contents.note .eraseExisting .restored i fun _ => id))
  rwa [sdiff_union_of_subset hPath] at hs

theorem Contents.insertNonexisting :
    Meets (LogExpected d Stores) (insertNonexisting d run) fun _ =>
      Contents d Stores (Iio d.config.keyCount) := by
  refine (Contents.createTable hShim fun _ => id).seq
    ((Contents.note .insertNonexisting .started 0 fun _ => id).seq
      (meets_grow _ (fun _ => Contents.insertNext hShim hKeys) (fun i hPos hLe hEnd => ?_)
        (Nat.zero_le _) (Nat.zero_mod _)))
  exact Contents.assignResult hRun hPos hLe hEnd fun _ => id

theorem Contents.eraseExisting :
    Meets (LogExpected d Stores) (eraseExisting d run) fun _ =>
      Contents d Stores (Iio d.config.keyCount) :=
  (Contents.createTable hShim fun _ => id).seq
    (meets_grow _ (fun _ => Contents.insertNext hShim hKeys)
      (fun _ => Contents.eraseRound hShim hKeys hRun) (Nat.zero_le _) (Nat.zero_mod _))

/-- Erasing all keys but the last leaves it alone in the table, and inserting
all keys again completes the table. -/
theorem Contents.reinsertAfterErasure :
    Meets (LogExpected d Stores) (reinsertAfterErasure d run) fun _ =>
      Contents d Stores (Iio d.config.keyCount) := by
  have hCount := d.config.keyCount_pos
  have hLess := d.config.keyCount_lt
  have hAll : Iio 0 ∪ {a | a ∈ List.range d.config.keyCount} = Iio d.config.keyCount := by
    ext a
    simp
  have hLast : Iio d.config.keyCount \ {a | a ∈ List.range (d.config.keyCount - 1)} =
      {d.config.keyCount - 1} := by
    ext a
    simp only [mem_sdiff, mem_Iio, mem_ofPred_eq, List.mem_range, mem_singleton_iff]
    omega
  have hFirst : {d.config.keyCount - 1} = Iio 0 ∪ {d.config.keyCount - 1} := by
    ext a
    simp
  have hEndSet : Iio d.config.keyCount ∪ {d.config.keyCount - 1} = Iio d.config.keyCount := by
    ext a
    simp only [mem_union, mem_Iio, mem_singleton_iff]
    omega
  have hNext (i : Nat) : insert i (Iio i ∪ {d.config.keyCount - 1}) =
      Iio (i + 1) ∪ {d.config.keyCount - 1} := by
    ext a
    simp only [mem_insert_iff, mem_union, mem_Iio, mem_singleton_iff]
    omega
  have hRange {n : Nat} (hn : n ≤ d.config.keyCount) :
      ∀ a ∈ List.range n, a < d.config.uniqueKeyCount := fun a ha => by
    have hBelow := List.mem_range.mp ha
    omega
  refine (Contents.createTable hShim fun _ => id).seq
    ((Contents.forM_insert hShim hKeys (hRange le_rfl)).seq
      (((Contents.forM_erase hShim hKeys (hRange (Nat.sub_le ..))).of_pre fun s hs => hAll ▸ hs).seq
        (((Contents.note .reinsertAfterErasure .started 0 fun _ => id).of_pre
          fun s hs => hLast ▸ hs).seq ?_)))
  refine (meets_grow (fun i => Contents d Stores (Iio i ∪ {d.config.keyCount - 1}))
    (fun i hi => ?_) (fun i hPos hLe hEnd => ?_) (Nat.zero_le _) (Nat.zero_mod _)).weaken
      (fun s hs => hFirst ▸ hs) fun _ s hs => hEndSet ▸ hs
  · exact (Contents.insertKey hShim hKeys (hi.trans hLess)).weaken (fun _ => id)
      fun _ s hs => hNext i ▸ hs
  · exact Contents.assignResult hRun hPos hLe hEnd fun _ => id

end Blocks

end HashBench.Driver
