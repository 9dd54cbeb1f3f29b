import HashBench.Driver.Rounds
import HashBench.Driver.TommydsLin
import HashBench.Library.Cyclic

/-! What the timed erasures of the driver remove. The driver knows a table by
the calls of its shim alone, so a shim that keeps a record of its erasures
sees all of them. -/
namespace HashBench

/-- Whether a search for the key comes back valid. -/
def Shim.holds {K T I : Type*} (shim : Shim K T I) (t : T) (key : K) : Bool :=
  shim.isItrValid (shim.find t key).1 (shim.find t key).2

/-- The same table, with a record that says of each erasure whether the table
held the key. -/
def Shim.recording {K T I : Type*} (shim : Shim K T I) : Shim K (T × List Bool) I where
  createTable := (shim.createTable, [])
  insert t key := (shim.insert t.1 key, t.2)
  erase t key := (shim.erase t.1 key, t.2 ++ [shim.holds t.1 key])
  find t key := (((shim.find t.1 key).1, t.2), (shim.find t.1 key).2)
  beginItr t := shim.beginItr t.1
  isItrValid t := shim.isItrValid t.1
  incrementItr t := shim.incrementItr t.1
  getKeyFromItr t := shim.getKeyFromItr t.1

theorem Shim.IsMap.recording {K V T I : Type*} {shim : Shim K T I} {bp : Blueprint K V}
    {Stores : T → Set K → Prop} (h : shim.IsMap bp Stores) :
    shim.recording.IsMap bp fun t => Stores t.1 where
  create := h.create
  insert key hStored := h.insert key hStored
  erase key hStored := h.erase key hStored
  find key hStored := h.find key hStored

namespace Driver

open Contract Set Cyclic Tommyds

variable {K V T I G : Type}

def Setup.recording (d : Setup K T I G) : Setup K (T × List Bool) I G where
  config := d.config
  shim := d.shim.recording
  generator := d.generator
  keys := d.keys

section Forget

/-- The same record, without what the erasures met. -/
def Event.forget : Event (T × List Bool) → Event T
  | .table benchmark moment i t => .table benchmark moment i t.1
  | .found benchmark valid => .found benchmark valid
  | .assigned benchmark index i => .assigned benchmark index i

def State.forget (s : State (T × List Bool) G) : State T G where
  table := s.table.1
  generator := s.generator
  log := s.log.map Event.forget

variable (d : Setup K T I G)

theorem simulates_shuffledUniqueKey (index : Nat) :
    Simulates State.forget (shuffledUniqueKey d.recording index : Run (T × List Bool) G K)
      (shuffledUniqueKey d index) :=
  .ite (.ret _) (.fault _)

theorem simulates_results (run resultIndex : Nat) :
    Simulates State.forget (results d.recording run resultIndex : Run (T × List Bool) G Nat)
      (results d run resultIndex) :=
  .ite (.ret _) (.fault _)

theorem simulates_uniform (lo hi : Nat) :
    Simulates State.forget (uniform d.recording lo hi : Run (T × List Bool) G Nat)
      (uniform d lo hi) :=
  .ite (fun _ => rfl) (.fault _)

theorem simulates_insertKey (index : Nat) :
    Simulates State.forget (insertKey d.recording index) (insertKey d index) :=
  (simulates_shuffledUniqueKey d index).bind fun _ => .update fun _ => rfl

theorem simulates_eraseKey (index : Nat) :
    Simulates State.forget (eraseKey d.recording index) (eraseKey d index) :=
  (simulates_shuffledUniqueKey d index).bind fun _ => .update fun _ => rfl

theorem simulates_note (benchmark : BenchmarkId) (moment : Moment) (i : Nat) :
    Simulates (State.forget (T := T) (G := G)) (note benchmark moment i)
      (note benchmark moment i) :=
  .update fun s => by simp [State.forget, Event.forget]

theorem simulates_assignResult (run : Nat) (benchmark : BenchmarkId) (i : Nat) :
    Simulates State.forget (assignResult d.recording run benchmark i : Run (T × List Bool) G PUnit)
      (assignResult d run benchmark i) :=
  (simulates_note benchmark .finished i).bind fun _ => (simulates_results d run _).bind fun _ =>
    .update fun s => by simp [State.forget, Event.forget]

theorem simulates_window {step : Nat → Run (T × List Bool) G PUnit} {step' : Nat → Run T G PUnit}
    (h : ∀ l, Simulates State.forget (step l) (step' l)) (lo hi left l : Nat) :
    Simulates State.forget (window step lo hi left l) (window step' lo hi left l) := by
  rw [window_eq_forM, window_eq_forM]
  exact .forM h _

theorem simulates_timed {body : Run (T × List Bool) G PUnit} {body' : Run T G PUnit}
    (h : Simulates State.forget body body') (run : Nat) (benchmark : BenchmarkId) (i : Nat) :
    Simulates State.forget (timed d.recording run benchmark i body)
      (timed d run benchmark i body') :=
  (simulates_note benchmark .started i).bind fun _ => h.bind fun _ =>
    simulates_assignResult d run benchmark i

theorem simulates_grow {measure : Nat → Run (T × List Bool) G PUnit}
    {measure' : Nat → Run T G PUnit} (h : ∀ i, Simulates State.forget (measure i) (measure' i)) :
    Simulates State.forget (grow d.recording measure 0 0) (grow d measure' 0 0) := by
  rw [grow_eq_rounds, grow_eq_rounds]
  exact .forM (fun r => (Simulates.forM (simulates_insertKey d) _).bind fun _ => h _) _

/-- The record is all that recording adds to the benchmark. -/
theorem simulates_eraseExisting (run : Nat) :
    Simulates State.forget (eraseExisting d.recording run) (eraseExisting d run) := by
  refine Simulates.bind (.update fun _ => rfl) fun _ => simulates_grow d fun i => ?_
  refine (simulates_uniform d 0 _).bind fun l => ?_
  refine (simulates_timed d (simulates_window (simulates_eraseKey d) 0 i 1000 l) run _ i).bind
    fun _ => ?_
  exact (simulates_window (simulates_insertKey d) 0 i 1000 l).bind fun _ =>
    simulates_note .eraseExisting .restored i

end Forget

/-- A walk over the first `i` indices is a walk around a circle. -/
theorem visited_eq_around {i l : Nat} (hl : l < i) (n : Nat) :
    visited 0 i n l = around i n l := by
  induction n generalizing l with
  | zero => rfl
  | succ n ih =>
      have hNext : nextIndex 0 i l = (l + 1) % i := by
        unfold nextIndex
        split_ifs with hEnd
        · rw [hEnd, Nat.mod_self]
        · rw [Nat.mod_eq_of_lt (by omega)]
      rw [visited, hNext, ih (Nat.mod_lt _ (by omega)), around_mod, around_succ,
        Nat.mod_eq_of_lt hl]

/-- The table stores these keys, and this is what its erasures met. -/
def Recorded (d : Setup K T I G) (Stores : T → Set K → Prop) (indices : Set Nat)
    (hits : List Bool) (s : State (T × List Bool) G) : Prop :=
  Contents d.recording (fun t => Stores t.1) indices s ∧ s.table.2 = hits

section Calls

variable {bp : Blueprint K V} {d : Setup K T I G} {Stores : T → Set K → Prop}
  {indices : Set Nat} {hits : List Bool} {index : Nat}

theorem Recorded.note (benchmark : BenchmarkId) (moment : Moment) (i : Nat)
    (hExpected : ∀ t, StoresKeys d.recording (fun t => Stores t.1) t indices →
      (Event.table benchmark moment i t).Expected d.recording fun t => Stores t.1) :
    Meets (Recorded d Stores indices hits) (note benchmark moment i) fun _ =>
      Recorded d Stores indices hits :=
  (Contents.note benchmark moment i hExpected).and (Meets.update fun _ => id)

theorem Recorded.assignResult {run : Nat} (hRun : run < d.config.runCount)
    (benchmark : BenchmarkId) {i : Nat} (hPos : 0 < i) (hLe : i ≤ d.config.keyCount)
    (hEnd : i % d.config.keyCountMeasurementInterval = 0)
    (hExpected : ∀ t, StoresKeys d.recording (fun t => Stores t.1) t indices →
      (Event.table benchmark .finished i t).Expected d.recording fun t => Stores t.1) :
    Meets (Recorded d Stores indices hits) (assignResult d.recording run benchmark i) fun _ =>
      Recorded d Stores indices hits := by
  refine (Contents.assignResult (d := d.recording) hRun hPos hLe hEnd hExpected).and ?_
  rw [Driver.assignResult, results_eq (d := d.recording) hRun (resultIndex_lt hPos hLe hEnd),
    pure_bind]
  have hNote : Meets (fun s : State (T × List Bool) G => s.table.2 = hits)
      (Driver.note benchmark .finished i) fun _ s => s.table.2 = hits := Meets.update fun _ => id
  exact hNote.seq (Meets.update fun _ => id)

theorem Recorded.uniform {lo hi : Nat} (h : lo ≤ hi) :
    Meets (Recorded d Stores indices hits) (uniform d.recording lo hi) fun draw s =>
      (lo ≤ draw ∧ draw ≤ hi) ∧ Recorded d Stores indices hits s := by
  rw [Driver.uniform, if_pos h]
  intro s hs
  exact ⟨_, _, rfl, d.generator.mem _ h, ⟨hs.1.indices_lt, hs.1.stored, hs.1.expected⟩, hs.2⟩

variable (hShim : d.shim.IsMap bp Stores)
  (hKeys : ∀ a b, a < d.config.uniqueKeyCount → b < d.config.uniqueKeyCount → a ≠ b →
    bp.cmprKeys (d.keys a) (d.keys b) = false)

include hShim hKeys

/-- A table that stores generated keys holds those, among the generated keys. -/
theorem holds_eq (hIndices : ∀ a ∈ indices, a < d.config.uniqueKeyCount)
    (hIndex : index < d.config.uniqueKeyCount) {t : T} (hStored : StoresKeys d Stores t indices) :
    d.shim.holds t (d.keys index) = true ↔ index ∈ indices := by
  rcases (hShim.find (d.keys index) hStored).2 with
    ⟨key, hKey, hMatch, hValid, _⟩ | ⟨hNone, hInvalid⟩
  · exact iff_of_true hValid (mem_of_matches hKeys hIndices hIndex hKey hMatch).1
  · refine iff_of_false (by simp [Shim.holds, hInvalid]) fun hMem => ?_
    have hSelf := hNone _ (mem_image_of_mem d.keys hMem)
    rw [bp.cmprKeys_refl] at hSelf
    cases hSelf

open Classical in
theorem Recorded.eraseKey (hIndex : index < d.config.uniqueKeyCount) :
    Meets (Recorded d Stores indices hits) (eraseKey d.recording index) fun _ =>
      Recorded d Stores (indices \ {index}) (hits ++ [decide (index ∈ indices)]) := by
  intro s hs
  obtain ⟨_, s', hRun, hContents⟩ :=
    Contents.eraseKey (d := d.recording) hShim.recording hKeys hIndex s hs.1
  refine ⟨_, s', hRun, hContents, ?_⟩
  have hHeld : d.shim.holds s.table.1 (d.keys index) = decide (index ∈ indices) := by
    rw [Bool.eq_iff_iff, decide_eq_true_iff]
    exact holds_eq hShim hKeys hs.1.indices_lt hIndex hs.1.stored
  rw [Driver.eraseKey, shuffledUniqueKey_eq (d := d.recording) hIndex, pure_bind] at hRun
  cases hRun
  rw [← hHeld, ← hs.2]
  rfl

end Calls

section Rounds

variable {bp : Blueprint K V} {d : Setup K T I G} {Stores : T → Set K → Prop} {run : Nat}
  {hits : List Bool} (hShim : d.shim.IsMap bp Stores)
  (hKeys : ∀ a b, a < d.config.uniqueKeyCount → b < d.config.uniqueKeyCount → a ≠ b →
    bp.cmprKeys (d.keys a) (d.keys b) = false)

/-- What `n` erasures in a walk around `i` stored keys meet: a key in the first
lap, and none from then on. -/
def lapHits (i n : Nat) : List Bool := (List.range n).map fun k => decide (k < i)

include hShim hKeys

/-- Inserting along a path adds the keys of the path. -/
theorem Recorded.forM_insert {indices : Set Nat} {path : List Nat}
    (hPath : ∀ a ∈ path, a < d.config.uniqueKeyCount) :
    Meets (Recorded d Stores indices hits) (path.forM (Driver.insertKey d.recording)) fun _ =>
      Recorded d Stores (indices ∪ {a | a ∈ path}) hits := by
  refine (Contents.forM_insert (d := d.recording) hShim.recording hKeys hPath).and ?_
  refine Meets.forM (fun _ (s : State (T × List Bool) G) => s.table.2 = hits) fun a _ ha => ?_
  rw [Driver.insertKey, shuffledUniqueKey_eq (d := d.recording) (hPath a ha), pure_bind]
  exact Meets.update fun _ => id

theorem Recorded.erase_around {i : Nat} (hPos : 0 < i) (hLe : i ≤ d.config.keyCount)
    (l n : Nat) :
    Meets (Recorded d Stores (Iio i) hits) ((around i n l).forM (Driver.eraseKey d.recording))
      fun _ => Recorded d Stores (Iio i \ {a | a ∈ around i n l}) (hits ++ lapHits i n) := by
  have hLess := d.config.keyCount_lt
  induction n with
  | zero => exact Meets.ret fun s hs => by simpa [around, lapHits] using hs
  | succ n ih =>
      have hLast : around i (n + 1) l = around i n l ++ [(l + n) % i] := by
        simp [around, List.range_succ]
      have hLt : (l + n) % i < i := Nat.mod_lt _ hPos
      rw [hLast, List.forM_eq_forM, List.forM_append]
      refine ih.seq ?_
      simp only [List.forM_cons, List.forM_nil]
      refine (Recorded.eraseKey hShim hKeys (by omega)).seq (Meets.ret fun s hs => ?_)
      have hSet : (Iio i \ {a | a ∈ around i n l}) \ {(l + n) % i} =
          Iio i \ {a | a ∈ around i n l ++ [(l + n) % i]} := by
        ext a
        simp only [mem_sdiff, mem_ofPred_eq, List.mem_append, List.mem_singleton,
          mem_singleton_iff]
        tauto
      have hHit : ((l + n) % i ∈ Iio i \ {a | a ∈ around i n l}) ↔ n < i := by
        rw [mem_sdiff, mem_ofPred_eq, mem_around_iff hPos, mem_Iio, not_le]
        exact and_iff_right hLt
      have hHits : hits ++ lapHits i n ++ [decide (n < i)] = hits ++ lapHits i (n + 1) := by
        rw [List.append_assoc, lapHits, lapHits, List.range_succ, List.map_append,
          List.map_singleton]
      rw [hSet] at hs
      refine ⟨hs.1, hs.2.trans ?_⟩
      rw [← hHits]
      simp only [hHit]

/-- A measurement with `i` keys in the table, which it leaves there. -/
theorem Recorded.eraseRound (hRun : run < d.config.runCount) {i : Nat} (hPos : 0 < i)
    (hLe : i ≤ d.config.keyCount) (hEnd : i % d.config.keyCountMeasurementInterval = 0) :
    Meets (Recorded d Stores (Iio i) hits) (do
      let eraseKeysBegin ← Driver.uniform d.recording 0 (sizePred i)
      timed d.recording run .eraseExisting i
        (window (Driver.eraseKey d.recording) 0 i 1000 eraseKeysBegin)
      window (Driver.insertKey d.recording) 0 i 1000 eraseKeysBegin
      Driver.note .eraseExisting .restored i) fun _ =>
        Recorded d Stores (Iio i) (hits ++ lapHits i 1000) := by
  have hLess := d.config.keyCount_lt
  have hTotal := d.config.total_lt
  refine (Recorded.uniform (Nat.zero_le _)).bind fun l => Meets.assume fun hDraw => ?_
  have hl : l < i := by
    rw [sizePred_eq hPos (by omega)] at hDraw
    omega
  have hPath : {a | a ∈ around i 1000 l} ⊆ Iio i := fun a ha => lt_of_mem_around hPos ha
  have hLt : ∀ a ∈ around i 1000 l, a < d.config.uniqueKeyCount := fun a ha => by
    have hBelow : a < i := hPath ha
    omega
  rw [window_eq_forM, window_eq_forM, visited_eq_around hl]
  have hErase : Meets (Recorded d Stores (Iio i) hits) (timed d.recording run .eraseExisting i
      ((around i 1000 l).forM (Driver.eraseKey d.recording))) fun _ =>
        Recorded d Stores (Iio i \ {a | a ∈ around i 1000 l}) (hits ++ lapHits i 1000) := by
    refine (Recorded.note .eraseExisting .started i fun _ => id).seq
      ((Recorded.erase_around hShim hKeys hPos hLe l 1000).seq
        (Recorded.assignResult hRun .eraseExisting hPos hLe hEnd fun t hStores => ⟨l, hl, ?_⟩))
    rwa [visited_eq_around hl]
  refine hErase.seq (((Recorded.forM_insert hShim hKeys hLt).weaken (fun _ => id)
    fun _ s hs => ?_).seq (Recorded.note .eraseExisting .restored i fun _ => id))
  rwa [sdiff_union_of_subset hPath] at hs

/-- Inserting the keys of a round. -/
theorem Recorded.insertRound {r : Nat} (hr : r < d.config.resultCount) :
    Meets (Recorded d Stores (Iio (r * d.config.keyCountMeasurementInterval)) hits)
      ((List.range' (r * d.config.keyCountMeasurementInterval)
        d.config.keyCountMeasurementInterval).forM (Driver.insertKey d.recording)) fun _ =>
      Recorded d Stores (Iio ((r + 1) * d.config.keyCountMeasurementInterval)) hits := by
  have hLess := d.config.keyCount_lt
  have hEnd : (r + 1) * d.config.keyCountMeasurementInterval ≤ d.config.keyCount :=
    (Nat.mul_le_mul_right _ hr).trans_eq d.config.resultCount_mul
  rw [Nat.succ_mul] at hEnd ⊢
  refine (Recorded.forM_insert hShim hKeys fun a ha => ?_).weaken (fun _ => id) fun _ s hs => ?_
  · have hRange := List.mem_range'_1.mp ha
    omega
  · have hSet : Iio (r * d.config.keyCountMeasurementInterval) ∪
        {a | a ∈ List.range' (r * d.config.keyCountMeasurementInterval)
          d.config.keyCountMeasurementInterval} =
        Iio (r * d.config.keyCountMeasurementInterval + d.config.keyCountMeasurementInterval) := by
      ext a
      simp only [mem_union, mem_Iio, mem_ofPred_eq, List.mem_range'_1]
      omega
    rwa [hSet] at hs

/-- What the timed erasures of the benchmark meet, measurement by measurement. -/
theorem Recorded.eraseExisting (hRun : run < d.config.runCount) :
    Meets (LogExpected d.recording fun t => Stores t.1) (eraseExisting d.recording run) fun _ =>
      Recorded d Stores (Iio (d.config.resultCount * d.config.keyCountMeasurementInterval))
        ((List.range d.config.resultCount).flatMap fun r =>
          lapHits ((r + 1) * d.config.keyCountMeasurementInterval) 1000) := by
  have hPos := d.config.interval_pos
  have hCreate : Meets (LogExpected d.recording fun t => Stores t.1) (createTable d.recording)
      fun _ => Recorded d Stores (Iio 0) [] := by
    have hHits : Meets (fun _ => True) (createTable d.recording) fun _ s => s.table.2 = [] :=
      Meets.update fun _ _ => rfl
    exact ((Contents.createTable (d := d.recording) hShim.recording fun _ => id).and
      hHits).of_pre fun s hs => ⟨hs, trivial⟩
  refine hCreate.seq ((meets_rounds (d := d.recording)
    (fun r => Recorded d Stores (Iio (r * d.config.keyCountMeasurementInterval))
      ((List.range r).flatMap fun q =>
        lapHits ((q + 1) * d.config.keyCountMeasurementInterval) 1000)) fun r hr => ?_).of_pre
    fun s hs => by simpa using hs)
  refine (Recorded.insertRound hShim hKeys hr).seq
    ((Recorded.eraseRound hShim hKeys hRun ?_ ?_ ?_).weaken (fun _ => id) fun _ s hs => ?_)
  · exact Nat.mul_pos r.succ_pos hPos
  · exact (Nat.mul_le_mul_right _ hr).trans_eq d.config.resultCount_mul
  · exact Nat.mul_mod_left ..
  · rw [List.range_succ, List.flatMap_append, List.flatMap_singleton]
    exact hs

omit hShim hKeys in
/-- All laps of a run are full ones exactly if the shortest circle is no
shorter than a lap. -/
theorem lapHits_all_iff :
    (∀ hit ∈ (List.range d.config.resultCount).flatMap fun r =>
        lapHits ((r + 1) * d.config.keyCountMeasurementInterval) 1000, hit = true) ↔
      1000 ≤ d.config.keyCountMeasurementInterval := by
  simp only [lapHits, List.mem_flatMap, List.mem_map, List.mem_range, forall_exists_index, and_imp]
  constructor
  · intro hAll
    have hLast := hAll _ 0 d.config.resultCount_pos 999 (by omega) rfl
    rw [Nat.zero_add, Nat.one_mul, decide_eq_true_iff] at hLast
    omega
  · rintro hLong _ r _ k hk rfl
    rw [decide_eq_true_iff]
    calc k < 1000 := hk
      _ ≤ 1 * d.config.keyCountMeasurementInterval := by rwa [Nat.one_mul]
      _ ≤ (r + 1) * d.config.keyCountMeasurementInterval :=
        Nat.mul_le_mul_right _ (Nat.succ_le_succ r.zero_le)

end Rounds

/-- In the measurement with `i` keys the `k`-th timed erasure, counted from
zero, removes a key of the table exactly if `k < i`. So all timed erasures of a
run do if and only if the interval is at least 1000. -/
theorem erase_existing_hits_iff (bp : Blueprint K V) (d : Setup K T I G)
    (Stores : T → Set K → Prop) (hShim : d.shim.IsMap bp Stores)
    (hKeys : ∀ a b, a < d.config.uniqueKeyCount → b < d.config.uniqueKeyCount → a ≠ b →
      bp.cmprKeys (d.keys a) (d.keys b) = false)
    (run : Nat) (hRun : run < d.config.runCount) (t : T) (g : G) :
    ∃ s, (eraseExisting d.recording run).run ⟨(t, []), g, []⟩ = .ok (⟨⟩, s) ∧
      (eraseExisting d run).run ⟨t, g, []⟩ = .ok (⟨⟩, s.forget) ∧
      s.table.2 = ((List.range d.config.resultCount).flatMap fun r =>
        (List.range 1000).map fun k =>
          decide (k < (r + 1) * d.config.keyCountMeasurementInterval)) ∧
      ((∀ hit ∈ s.table.2, hit = true) ↔ 1000 ≤ d.config.keyCountMeasurementInterval) := by
  obtain ⟨_, s, hReturn, _, hHits⟩ :=
    Recorded.eraseExisting hShim hKeys hRun ⟨(t, []), g, []⟩ fun e he => absurd he List.not_mem_nil
  refine ⟨s, hReturn, (simulates_eraseExisting d run).run_eq hReturn, hHits, ?_⟩
  rw [hHits]
  exact lapHits_all_iff

/-- The driver as configured, over the tommyds_lin shim and numbers as keys. -/
def defaultSetup : Setup Nat (TommyHashlin Nat Unit)
    (Iterator (TommyHashlin Nat Unit) Nat Unit) Unit :=
  tommydsLinSetup (.all 200000 500 14 (by decide) (by decide))

/-- With an interval of 500 some timed erasures are of absent keys. -/
theorem defaultSetup_misses :
    ∃ s, (eraseExisting defaultSetup.recording 0).run ⟨(TommydsLin.createTable, []), (), []⟩ =
        .ok (⟨⟩, s) ∧ false ∈ s.table.2 := by
  have hRun : 0 < defaultSetup.config.runCount := by decide
  obtain ⟨_, s, hReturn, _, hHits⟩ := Recorded.eraseExisting
    (tommydsLin_isMap fun _ _ h => of_decide_eq_true h) (fun _ _ _ _ hNe => decide_eq_false hNe)
    hRun ⟨(TommydsLin.createTable, []), (), []⟩ fun e he => absurd he List.not_mem_nil
  refine ⟨s, hReturn, ?_⟩
  rw [hHits]
  refine List.mem_flatMap.mpr ⟨0, List.mem_range.mpr (by decide), ?_⟩
  exact List.mem_map.mpr ⟨500, List.mem_range.mpr (by decide), by decide⟩

theorem erase_existing_hits_iff_defaultSetup :
    ∃ s, (eraseExisting defaultSetup.recording 0).run ⟨(TommydsLin.createTable, []), (), []⟩ =
        .ok (⟨⟩, s) ∧
      ((∀ hit ∈ s.table.2, hit = true) ↔
        1000 ≤ defaultSetup.config.keyCountMeasurementInterval) := by
  obtain ⟨s, hReturn, _, _, hIff⟩ := erase_existing_hits_iff (Blueprint.ofEq (fun k : Nat => k) ())
    defaultSetup _ (tommydsLin_isMap fun _ _ h => of_decide_eq_true h)
    (fun _ _ _ _ hNe => decide_eq_false hNe) 0 (by decide) TommydsLin.createTable ()
  exact ⟨s, hReturn, hIff⟩

end Driver

end HashBench
