import HashBench.Driver.Contents
import HashBench.Driver.TommydsLin
import HashBench.Library.Cyclic

/-! What the iteration of the driver reads. Over any table whose iterators go
through its keys once, a search only decides where the walk begins, and the
walk goes around the keys. -/
namespace HashBench.Driver

open Iteration Contract Set Cyclic Tommyds

variable {K V T I G : Type}

section Walk

variable {d : Setup K T I G} {t : T}

/-- A loop that goes through valid iterators at keys reads these keys. -/
theorem readKeys_run {n : Nat} {itr : I} {keys : List K} (s : State T G)
    (hValid : ∀ it ∈ laps (d.shim.isItrValid t) (d.shim.incrementItr t) (d.shim.beginItr t) n itr,
      d.shim.isItrValid t it = true)
    (hKeys : (laps (d.shim.isItrValid t) (d.shim.incrementItr t) (d.shim.beginItr t) n itr).map
      (d.shim.getKeyFromItr t) = keys.map some) :
    (readKeys d t n itr).run s = .ok (keys, s) := by
  induction n generalizing itr keys with
  | zero =>
      obtain rfl := List.map_eq_nil_iff.mp hKeys.symm
      rfl
  | succ n ih =>
      obtain ⟨key, rest, rfl, hKey, hRest⟩ := List.map_eq_cons_iff.mp hKeys.symm
      have hRead : readKey d t itr = (pure key : Run T G K) := by
        rw [readKey, if_pos (hValid itr List.mem_cons_self), ← hKey]
      have hTail := ih (fun it hIt => hValid it (List.mem_cons_of_mem _ hIt)) hRest.symm
      rw [readKeys, hRead, pure_bind, StateT.run_bind]
      rw [advance] at hTail
      rw [hTail]
      rfl

end Walk

/-- A walk of 1000 steps that covers the first `i` generated keys evenly. -/
structure Covers (bp : Blueprint K V) (d : Setup K T I G) (i : Nat) (keys : List K) : Prop where
  length : keys.length = 1000
  stored : ∀ k ∈ keys, k ∈ d.keys '' Iio i
  distinct : 1000 ≤ i → keys.Pairwise fun k k' => bp.cmprKeys k k' = false
  even : i < 1000 → ∀ a < i, keys.countP (bp.cmprKeys (d.keys a)) = 1000 / i ∨
    keys.countP (bp.cmprKeys (d.keys a)) = (1000 + i - 1) / i

section Orders

variable {bp : Blueprint K V} {d : Setup K T I G} {i : Nat} {order : List K}
  (hKeys : ∀ a b, a < d.config.uniqueKeyCount → b < d.config.uniqueKeyCount → a ≠ b →
    bp.cmprKeys (d.keys a) (d.keys b) = false)
  (hLe : i ≤ d.config.uniqueKeyCount)

include hKeys hLe

theorem matches_iff {a b : Nat} (ha : a < i) (hb : b < i) :
    bp.cmprKeys (d.keys a) (d.keys b) = true ↔ d.keys b = d.keys a := by
  constructor
  · intro hMatch
    by_cases hEq : a = b
    · rw [hEq]
    · rw [hKeys a b (by omega) (by omega) hEq] at hMatch
      cases hMatch
  · intro hEq
    rw [hEq]
    exact bp.cmprKeys_refl _

/-- A scan of the table reads as many keys as were inserted. -/
theorem length_order (hNodup : order.Nodup) (hMem : ∀ k, k ∈ order ↔ k ∈ d.keys '' Iio i) :
    order.length = i := by
  have hInj : ((List.range i).map d.keys).Nodup := by
    refine List.Nodup.map_on (fun a ha b hb hEq => ?_) List.nodup_range
    have ha := List.mem_range.mp ha
    have hb := List.mem_range.mp hb
    by_contra hNe
    have hDiffer := hKeys a b (by omega) (by omega) hNe
    rw [hEq, bp.cmprKeys_refl] at hDiffer
    cases hDiffer
  have hPerm : order.Perm ((List.range i).map d.keys) := by
    refine (List.perm_ext_iff_of_nodup hNodup hInj).mpr fun k => ?_
    rw [hMem, List.mem_map]
    simp only [mem_image, mem_Iio, List.mem_range]
  simpa using hPerm.length_eq

open Classical in
/-- A walk around the stored keys covers them evenly. -/
theorem covers_circuit (hNodup : order.Nodup) (hMem : ∀ k, k ∈ order ↔ k ∈ d.keys '' Iio i)
    {p : Nat} (hp : p < order.length) : Covers bp d i (circuit order 1000 p) := by
  have hLength := length_order hKeys hLe hNodup hMem
  have hStored : ∀ k ∈ circuit order 1000 p, k ∈ d.keys '' Iio i := fun k hk =>
    (hMem k).mp (mem_of_mem_circuit hk)
  refine ⟨length_circuit hp 1000, hStored, fun hMany => ?_, fun _ a ha => ?_⟩
  · refine (nodup_circuit hNodup (hLength ▸ hMany) p).imp_of_mem fun hk hk' hNe => ?_
    obtain ⟨a, ha, rfl⟩ := hStored _ hk
    obtain ⟨b, hb, rfl⟩ := hStored _ hk'
    exact Bool.eq_false_iff.mpr fun hMatch =>
      hNe ((matches_iff hKeys hLe ha hb).mp hMatch).symm
  · have hCount : (circuit order 1000 p).countP (bp.cmprKeys (d.keys a)) =
        (circuit order 1000 p).count (d.keys a) := by
      rw [List.count]
      refine List.countP_congr fun k hk => ?_
      obtain ⟨b, hb, rfl⟩ := hStored k hk
      rw [matches_iff hKeys hLe ha hb, beq_iff_eq]
    rw [hCount, ← hLength]
    exact count_circuit hNodup 1000 p ((hMem _).mpr ⟨a, ha, rfl⟩)

end Orders

section Measurement

variable {bp : Blueprint K V} {d : Setup K T I G} {Stores : T → Set K → Prop} {i : Nat}
  (hShim : d.shim.IsMap bp Stores) (hIterates : d.shim.Iterates bp Stores)
  (hKeys : ∀ a b, a < d.config.uniqueKeyCount → b < d.config.uniqueKeyCount → a ≠ b →
    bp.cmprKeys (d.keys a) (d.keys b) = false)

include hShim hIterates hKeys

/-- From a search for a stored key the loop reads keys that cover the table. -/
theorem readKeys_covers (hLe : i ≤ d.config.uniqueKeyCount) {t : T}
    (hStored : StoresKeys d Stores t (Iio i)) {l : Nat} (hl : l < i) (s : State T G) :
    ∃ keys, (readKeys d (d.shim.find t (d.keys l)).1 1000 (d.shim.find t (d.keys l)).2).run s =
      .ok (keys, s) ∧ Covers bp d i keys := by
  have hMemKey : d.keys l ∈ d.keys '' Iio i := ⟨l, hl, rfl⟩
  obtain ⟨order, hDistinct, hMem, hFirst⟩ := hIterates.begin (hShim.find (d.keys l) hStored).1
  obtain ⟨_, _, before, k, after, _, hScan, hFound⟩ :=
    hIterates.find (d.keys l) hStored ⟨_, hMemKey, bp.cmprKeys_refl _⟩
  have hNodup : order.Nodup := hDistinct.imp fun {k k'} hNe hEq => by
    simp [hEq, bp.cmprKeys_refl] at hNe
  have hSplit := hFirst.unique hScan
  have hp : before.length < order.length := by
    have hLength := congrArg List.length hSplit
    simp only [List.length_map, List.length_append, List.length_cons] at hLength
    omega
  have hDrop : (order.map some).drop before.length = k :: after := by rw [hSplit, List.drop_left]
  rw [← hDrop] at hFound
  obtain ⟨hValid, hRead⟩ := laps_circuit hFirst (by simpa using hp) hFound 1000
  rw [circuit_map] at hRead
  exact ⟨_, readKeys_run s hValid hRead, covers_circuit hKeys hLe hNodup hMem hp⟩

/-- At a measurement with `i` keys in the table the iteration comes to its end.
It reads keys that cover the table, and only a search has touched the table. -/
theorem iterationKeys_run {run : Nat} (hRun : run < d.config.runCount) (hPos : 0 < i)
    (hLe : i ≤ d.config.keyCount) (hEnd : i % d.config.keyCountMeasurementInterval = 0)
    (s : State T G) (hStored : StoresKeys d Stores s.table (Iio i)) :
    ∃ keys found generator index, (iterationKeys d run i).run s = .ok (keys, ⟨found, generator,
        s.log ++ [.table .iteration .started i found] ++ [.table .iteration .finished i found] ++
          [.assigned .iteration index i]⟩) ∧
      StoresKeys d Stores found (Iio i) ∧ Covers bp d i keys := by
  have hLess := d.config.keyCount_lt
  have hTotal := d.config.total_lt
  set draw := d.generator.uniformIntDistribution s.generator 0 (sizePred i) with hDraw
  set found := d.shim.find s.table (d.keys draw.1) with hFound
  have hl : draw.1 < i := by
    have hMem := (d.generator.mem s.generator (Nat.zero_le (sizePred i))).2
    rw [sizePred_eq hPos (by omega)] at hMem
    rw [hDraw, sizePred_eq hPos (by omega)]
    omega
  have hUniform : (uniform d 0 (sizePred i) : Run T G Nat).run s =
      .ok (draw.1, { s with generator := draw.2 }) := by
    rw [uniform, if_pos (Nat.zero_le _)]
    rfl
  have hFind : (findKey d draw.1).run { s with generator := draw.2 } =
      .ok (found.2, ⟨found.1, draw.2, s.log⟩) := by
    rw [findKey, shuffledUniqueKey_eq (by omega)]
    rfl
  obtain ⟨keys, hRead, hCovers⟩ := readKeys_covers hShim hIterates hKeys (by omega) hStored hl
    ⟨found.1, draw.2, s.log ++ [.table .iteration .started i found.1]⟩
  rw [← hFound] at hRead
  have hNote : (note .iteration .started i : Run T G PUnit).run ⟨found.1, draw.2, s.log⟩ =
      .ok (⟨⟩, ⟨found.1, draw.2, s.log ++ [.table .iteration .started i found.1]⟩) := rfl
  refine ⟨keys, found.1, draw.2, d.config.flatIndex run
    (sizePred (i / d.config.keyCountMeasurementInterval)), ?_, ?_, hCovers⟩
  · rw [iterationKeys, run_bind_of_ok hUniform, run_bind_of_ok hFind, run_bind_of_ok hNote,
      StateT.run_bind, StateT.run_get, pure_bind, run_bind_of_ok hRead, assignResult,
      results_eq hRun (resultIndex_lt hPos hLe hEnd)]
    rfl
  · exact (hShim.find (d.keys draw.1) hStored).1

/-- The iteration leaves the table with the keys that it stored. -/
theorem Contents.iteration {run : Nat} (hRun : run < d.config.runCount) (hPos : 0 < i)
    (hLe : i ≤ d.config.keyCount) (hEnd : i % d.config.keyCountMeasurementInterval = 0) :
    Meets (Contents d Stores (Iio i)) (iteration d run i) fun _ =>
      Contents d Stores (Iio i) := by
  intro s hs
  obtain ⟨keys, found, generator, index, hReturn, hStored, -⟩ :=
    iterationKeys_run hShim hIterates hKeys hRun hPos hLe hEnd s hs.stored
  refine ⟨⟨⟩, _, (run_bind_of_ok hReturn).trans rfl, hs.indices_lt, hStored, fun e he => ?_⟩
  simp only [List.mem_append, List.mem_singleton] at he
  rcases he with ((hOld | rfl) | rfl) | rfl
  · exact hs.expected e hOld
  · exact hStored
  · exact hStored
  · exact trivial

end Measurement

/-- At every measurement with `i` keys in the table, wherever the draw lets it
begin, the iteration reads through 1000 valid iterators. It reads no key twice
if there are enough of them, and otherwise reads all equally often, up to one. -/
theorem iteration_covers (bp : Blueprint K V) (d : Setup K T I G) (Stores : T → Set K → Prop)
    (hShim : d.shim.IsMap bp Stores) (hIterates : d.shim.Iterates bp Stores)
    (hKeys : ∀ a b, a < d.config.uniqueKeyCount → b < d.config.uniqueKeyCount → a ≠ b →
      bp.cmprKeys (d.keys a) (d.keys b) = false)
    (run : Nat) (hRun : run < d.config.runCount) (i : Nat) (hPos : 0 < i)
    (hLe : i ≤ d.config.keyCount) (hEnd : i % d.config.keyCountMeasurementInterval = 0)
    (s : State T G) (hStored : StoresKeys d Stores s.table (Iio i)) :
    ∃ keys s', (iterationKeys d run i).run s = .ok (keys, s') ∧
      (iteration d run i).run s = .ok (⟨⟩, s') ∧ Covers bp d i keys := by
  obtain ⟨keys, found, generator, index, hReturn, -, hCovers⟩ :=
    iterationKeys_run hShim hIterates hKeys hRun hPos hLe hEnd s hStored
  exact ⟨keys, _, hReturn, (run_bind_of_ok hReturn).trans rfl, hCovers⟩

/-- Three keys with a measurement at each, over the tommyds_lin shim. -/
def threeKeys : Setup Nat (TommyHashlin Nat Unit) (Iterator (TommyHashlin Nat Unit) Nat Unit)
    Unit :=
  tommydsLinSetup (.all 3 1 1 (by decide) (by decide))

theorem iteration_covers_threeKeys :
    ∃ keys s', (iterationKeys threeKeys 0 3).run
        ⟨TommydsLin.run (fun _ => []) (Blueprint.ofEq (fun k => k) ())
          [.insert 0, .insert 1, .insert 2], (), []⟩ = .ok (keys, s') ∧
      Covers (Blueprint.ofEq (fun k : Nat => k) ()) threeKeys 3 keys := by
  obtain ⟨keys, s', hRun, _, hCovers⟩ := iteration_covers (Blueprint.ofEq (fun k : Nat => k) ())
    threeKeys _ (tommydsLin_isMap fun _ _ h => of_decide_eq_true h)
    (tommydsLin_iterates fun _ _ h => of_decide_eq_true h)
    (fun _ _ _ _ hNe => decide_eq_false hNe) 0 (by decide) 3 (by decide) (by decide) (by decide)
    ⟨TommydsLin.run (fun _ => []) (Blueprint.ofEq (fun k => k) ())
      [.insert 0, .insert 1, .insert 2], (), []⟩
    ⟨[.insert 0, .insert 1, .insert 2], rfl, fun k => by
      simp only [threeKeys, tommydsLinSetup, image_id, mem_Iio, Blueprint.present,
        Blueprint.apply, Blueprint.ofEq, List.foldl_cons, List.foldl_nil, Bool.or_eq_true, decide_eq_true_iff,
        Bool.false_eq_true, or_false]
      omega⟩
  exact ⟨keys, s', hRun, hCovers⟩

end HashBench.Driver
