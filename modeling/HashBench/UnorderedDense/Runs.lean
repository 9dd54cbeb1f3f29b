import HashBench.UnorderedDense.Growing
import Mathlib.Tactic.NormNum

/-! Runs of calls on a table of ankerl::unordered_dense. -/
namespace HashBench.UnorderedDense

open Search While RobinHood Dense

variable {K V : Type} {maxLoad : ℚ} {bp : Blueprint K V} {table : Table K V} {key : K} {val : V}

/-- One call. -/
def call (maxLoad : ℚ) (bp : Blueprint K V) (fuel : Nat) (table : Table K V) :
    StdOp K V → Option (Table K V)
  | .assign key val => table.assign maxLoad bp fuel key val
  | .tryEmplace key val => (table.doTryEmplace maxLoad bp fuel key val).map Prod.fst
  | .erase key => (table.doEraseKey bp fuel key).map Prod.fst
  | .reserve size => table.reserve maxLoad bp fuel size
  | .rehash count => table.rehash maxLoad bp fuel count
  | .clear => some table.clear

def run (maxLoad : ℚ) (bp : Blueprint K V) (fuel : Nat) (ops : List (StdOp K V)) :
    Option (Table K V) :=
  ops.foldlM (call maxLoad bp fuel) (createTable maxLoad)

/-- A request for a size that the largest number of buckets is enough for. -/
def RequestFits (maxLoad : ℚ) : StdOp K V → Prop
  | .reserve size => min size maxSize ≤ capacityOf maxLoad maxSize
  | .rehash count => min count maxSize ≤ capacityOf maxLoad maxSize
  | _ => True

/-- The table is a finite map: an iteration over the vector lists what is found,
and every lookup ends and finds it. -/
structure Serves (bp : Blueprint K V) (table : Table K V) (found : K → Option (K × V)) : Prop where
  lists : bp.Lists table.values found
  finds : ∀ key, ∃ it, ReturnsTo (fun fuel => table.doFind bp fuel key) it ∧
    it.bind (table.values[·]?) = found key

/-- A sound table and what is found in it. -/
structure Stores (maxLoad : ℚ) (bp : Blueprint K V) (table : Table K V)
    (found : K → Option (K × V)) : Prop extends Sound maxLoad bp table where
  finds : bp.Finds (table.values : Multiset (K × V)) found

theorem notMem_of_absent {values : List (K × V)}
    (h : ∀ pair ∈ values, bp.cmprKeys key pair.1 = false) :
    bp.cls key ∉ bp.keyClasses (values : Multiset (K × V)) :=
  Blueprint.notMem_keyClasses.mpr fun pair hPair => by
    rw [bp.cmprKeys_comm]
    exact h pair hPair

theorem coe_getElem_cons {values : List (K × V)} {v : Nat} (hv : v < values.length) :
    ∃ rest : Multiset (K × V), (values : Multiset (K × V)) = values[v] ::ₘ rest :=
  Multiset.exists_cons_of_mem (Multiset.mem_coe.mpr (List.getElem_mem hv))

/-- The largest number of buckets is enough for the distances of 24 bits. -/
theorem pairLimit_le (h : 1 / 256 ≤ maxLoad) : pairLimit ≤ capacityOf maxLoad maxSize := by
  apply Nat.le_floor
  calc (pairLimit : ℚ) ≤ (maxSize : ℚ) * (1 / 256) := by norm_num [pairLimit, maxSize]
    _ ≤ (maxSize : ℚ) * maxLoad := mul_le_mul_of_nonneg_left h (Nat.cast_nonneg _)

namespace Stores

variable {found : K → Option (K × V)} (h : Stores maxLoad bp table found)
include h

theorem serves : Serves bp table found := by
  refine ⟨h.finds.lists h.nodup, fun key => ?_⟩
  rcases h.indexed with hIndexed | ⟨hEmpty, _⟩
  · obtain ⟨it, hReturns, hLocated⟩ := hIndexed.doFind_returns key
    refine ⟨it, hReturns, ?_⟩
    cases it with
    | none =>
        exact (h.finds.eq_none (notMem_of_absent hLocated)).symm
    | some v =>
        obtain ⟨pair, hPair, hKey⟩ := hLocated
        have hMem := Multiset.mem_coe.mpr (List.mem_of_getElem? hPair)
        rw [(h.finds key pair).mpr ⟨hMem, bp.cmprKeys_symm hKey⟩]
        exact hPair
  · refine ⟨none, ?_, ?_⟩
    · simp only [Table.doFind, hEmpty, List.isEmpty_nil, if_true]
      exact ReturnsTo.pure _
    · refine (h.finds.eq_none ?_).symm
      rw [hEmpty]
      exact Multiset.notMem_zero _

/-- A pair leaves the table. -/
theorem swapRemoved {v : Nat} (hv : v < table.values.length)
    (hKey : bp.cmprKeys key table.values[v].1 = true) {buckets : Nat → Bucket}
    (hIndexed : Indexed bp { table with values := swapRemove table.values v, buckets }
      (table.values.length - 1)) :
    Stores maxLoad bp { table with values := swapRemove table.values v, buckets }
      (bp.remove found key) := by
  have hNodup := h.nodup
  have hFinds := h.finds
  rw [← cons_swapRemove hv] at hNodup hFinds
  refine ⟨⟨Or.inl ?_, h.capacious, ?_⟩, hFinds.erase_stored hNodup (bp.cmprKeys_symm hKey)⟩
  · rw [← length_swapRemove table.values v] at hIndexed
    exact hIndexed
  · rw [Blueprint.keyClasses_cons, Multiset.nodup_cons] at hNodup
    exact hNodup.2

/-- `do_erase_key` returns the number of the pairs that it removes. -/
theorem doEraseKey_returns (key : K) :
    ∃ table' count, ReturnsTo (fun fuel => table.doEraseKey bp fuel key) (table', count) ∧
      Stores maxLoad bp table' (bp.remove found key) ∧
      count = if (found key).isSome then 1 else 0 := by
  have hAbsent (hNone : ∀ pair ∈ table.values, bp.cmprKeys key pair.1 = false) :
      Stores maxLoad bp table (bp.remove found key) ∧
        0 = if (found key).isSome then 1 else 0 := by
    refine ⟨⟨h.toSound, h.finds.erase_absent (notMem_of_absent hNone)⟩, ?_⟩
    simp [h.finds.eq_none (notMem_of_absent hNone)]
  rcases h.indexed with hIndexed | ⟨hEmpty, _⟩
  · rcases hIndexed.doEraseKey_returns key with ⟨v, hv, buckets, hKey, hReturns, hIndexed'⟩ |
      ⟨hNone, hReturns⟩
    · refine ⟨_, 1, hReturns, h.swapRemoved hv hKey hIndexed', ?_⟩
      have hMem := Multiset.mem_coe.mpr (List.getElem_mem hv)
      simp [(h.finds key _).mpr ⟨hMem, bp.cmprKeys_symm hKey⟩]
    · exact ⟨table, 0, hReturns, hAbsent hNone⟩
  · refine ⟨table, 0, ?_, hAbsent (by simp [hEmpty])⟩
    simp only [Table.doEraseKey, hEmpty, List.isEmpty_nil, if_true]
    exact ReturnsTo.pure _

/-- `do_try_emplace` returns the index of the key's pair, and whether it is new. -/
theorem doTryEmplace_returns (hLoad : maxLoad < 1) (hFew : table.values.length ≤ pairLimit)
    (key : K) (val : V)
    (hNew : bp.cls key ∉ bp.keyClasses (table.values : Multiset (K × V)) →
      table.values.length + 1 ≤ pairLimit) :
    ∃ (table' : Table K V) (v : Nat) (hv : v < table'.values.length) (inserted : Bool),
      ReturnsTo (fun fuel => table.doTryEmplace maxLoad bp fuel key val) (table', v, inserted) ∧
      bp.cmprKeys key table'.values[v].1 = true ∧
      Stores maxLoad bp table' (bp.applyStd found (.tryEmplace key val)) ∧
      table'.values[v].1 = (found key).elim key Prod.fst ∧ inserted = (found key).isNone := by
  obtain ⟨grown, hGrown, hValues, hIndexed, hCapacious, hRoom⟩ := h.grown_returns hLoad hFew
  rw [← hValues] at hIndexed hRoom hNew
  have hNodup : (bp.keyClasses (grown.values : Multiset (K × V))).Nodup := hValues ▸ h.nodup
  have hFinds : bp.Finds (grown.values : Multiset (K × V)) found := hValues ▸ h.finds
  rcases hIndexed.emplaceInto_returns hRoom key val with ⟨v, hv, hKey, hReturns⟩ | ⟨hNone, hPlaced⟩
  · have hMem := Multiset.mem_coe.mpr (List.getElem_mem hv)
    have hSome := (hFinds key _).mpr ⟨hMem, bp.cmprKeys_symm hKey⟩
    refine ⟨grown, v, hv, false, hGrown.bind hReturns, hKey, ⟨⟨Or.inl hIndexed, hCapacious,
      hNodup⟩, ?_⟩, by simp [hSome], by simp [hSome]⟩
    simpa [Blueprint.applyStd, hSome] using hFinds
  · have hAbsent := notMem_of_absent hNone
    obtain ⟨buckets, hReturns, hIndexed'⟩ := hPlaced (hNew hAbsent)
    have hSome := hFinds.eq_none hAbsent
    have hCons : ((grown.values ++ [(key, val)] : List (K × V)) : Multiset (K × V)) =
        (key, val) ::ₘ (grown.values : Multiset (K × V)) := by
      rw [← Multiset.coe_add, Multiset.add_comm]
      rfl
    refine ⟨_, _, by simp, true, hGrown.bind hReturns, by simp [bp.cmprKeys_refl], ⟨⟨Or.inl ?_,
      hCapacious, ?_⟩, ?_⟩, by simp [hSome], by simp [hSome]⟩
    · simpa using hIndexed'
    · rw [hCons, Blueprint.keyClasses_cons, Multiset.nodup_cons]
      exact ⟨hAbsent, hNodup⟩
    · rw [hCons]
      simpa [Blueprint.applyStd, hSome] using hFinds.insert_new hAbsent val

/-- A value is assigned to the pair at an index. -/
theorem setValue {v : Nat} (hv : v < table.values.length) (val : V) :
    Stores maxLoad bp
      { table with values := table.values.modify v fun pair => (pair.1, val) }
      (bp.put found table.values[v].1 val) := by
  have hSet : table.values.modify v (fun pair => (pair.1, val)) =
      table.values.set v (table.values[v].1, val) := by
    apply List.ext_getElem?
    intro u
    rw [List.getElem?_modify, List.getElem?_set]
    by_cases hu : v = u
    · subst hu
      simp [hv]
    · simp [hu]
  obtain ⟨rest, hRest⟩ := coe_getElem_cons hv
  have hCoe : ((table.values.set v (table.values[v].1, val) : List (K × V)) : Multiset (K × V)) =
      (table.values[v].1, val) ::ₘ rest := by
    have hCons := cons_set hv (table.values[v].1, val)
    rw [hRest, Multiset.cons_swap, Multiset.cons_inj_right] at hCons
    exact hCons
  have hNodup := h.nodup
  have hFinds := h.finds
  rw [hRest] at hNodup hFinds
  rw [hSet]
  refine ⟨⟨?_, h.capacious, ?_⟩, ?_⟩
  · rcases h.indexed with hIndexed | ⟨hEmpty, _⟩
    · refine Or.inl ?_
      simp only [List.length_set]
      apply hIndexed.congr_values
      · intro u hu
        by_cases hSame : v = u
        · subst hSame
          rw [hashAt_eq (List.getElem?_set_self hv), hashAt_eq (List.getElem?_eq_getElem hv)]
        · rw [hashAt, hashAt, List.getElem?_set_ne hSame]
      · simp
    · simp [hEmpty] at hv
  · simp only [hCoe]
    rw [Blueprint.keyClasses_cons] at hNodup ⊢
    exact hNodup
  · simp only [hCoe]
    exact hFinds.insert_old hNodup (bp.cmprKeys_refl _) val

/-- `table[ key ] = val` keeps the key that was there. -/
theorem assign_returns (hLoad : maxLoad < 1) (hFew : table.values.length ≤ pairLimit)
    (key : K) (val : V)
    (hNew : bp.cls key ∉ bp.keyClasses (table.values : Multiset (K × V)) →
      table.values.length + 1 ≤ pairLimit) :
    ∃ table', ReturnsTo (fun fuel => table.assign maxLoad bp fuel key val) table' ∧
      Stores maxLoad bp table' (bp.assign found key val) := by
  obtain ⟨table', v, hv, inserted, hReturns, hKey, hStores, hOld, _⟩ :=
    h.doTryEmplace_returns hLoad hFew key bp.valueType hNew
  have hSet := hStores.setValue hv val
  have hFound : bp.put (bp.applyStd found (.tryEmplace key bp.valueType)) table'.values[v].1 val =
      bp.assign found key val := by
    rw [hOld, Blueprint.assign]
    funext k
    simp only [Blueprint.applyStd]
    split_ifs with hSome
    · rfl
    · rw [Option.not_isSome_iff_eq_none] at hSome
      simp only [Blueprint.put, hSome, Option.elim_none]
      split_ifs
      · rfl
      · rfl
  rw [hFound] at hSet
  exact ⟨_, hReturns.bind (ReturnsTo.pure _), hSet⟩

/-- A new pair is one of those that there may be. -/
theorem room_for {found' : K → Option (K × V)} (val : V)
    (hFew : ∀ stored, bp.Finds stored found' → (bp.keyClasses stored).Nodup →
      stored.card ≤ pairLimit)
    (hAbsent : bp.cls key ∉ bp.keyClasses (table.values : Multiset (K × V)))
    (hFound : found' = bp.put found key val) : table.values.length + 1 ≤ pairLimit := by
  subst hFound
  have hCard := hFew _ (h.finds.insert_new hAbsent val) (by
    rw [Blueprint.keyClasses_cons, Multiset.nodup_cons]
    exact ⟨hAbsent, h.nodup⟩)
  rwa [Multiset.card_cons, Multiset.coe_card] at hCard

theorem room_for_emplace
    (hFew : ∀ stored, bp.Finds stored (bp.applyStd found (.tryEmplace key val)) →
      (bp.keyClasses stored).Nodup → stored.card ≤ pairLimit)
    (hAbsent : bp.cls key ∉ bp.keyClasses (table.values : Multiset (K × V))) :
    table.values.length + 1 ≤ pairLimit := by
  apply h.room_for val hFew hAbsent
  rw [Blueprint.applyStd, h.finds.eq_none hAbsent]
  rfl

/-- A call on a table returns if neither the table nor what it leaves has too many keys. -/
theorem call_returns (hLow : 1 / 256 ≤ maxLoad) (hLoad : maxLoad < 1) (op : StdOp K V)
    (hFit : RequestFits maxLoad op) (hFew : table.values.length ≤ pairLimit)
    (hFew' : ∀ stored, bp.Finds stored (bp.applyStd found op) → (bp.keyClasses stored).Nodup →
      stored.card ≤ pairLimit) :
    ∃ table', ReturnsTo (fun fuel => call maxLoad bp fuel table op) table' ∧
      Stores maxLoad bp table' (bp.applyStd found op) := by
  have hMax := pairLimit_le hLow
  cases op with
  | assign key val =>
      apply h.assign_returns hLoad hFew key val
      intro hAbsent
      apply h.room_for val hFew' hAbsent
      rw [Blueprint.applyStd, Blueprint.assign, h.finds.eq_none hAbsent, Option.elim_none]
  | tryEmplace key val =>
      obtain ⟨table', v, hv, inserted, hReturns, _, hStores, _⟩ :=
        h.doTryEmplace_returns hLoad hFew key val (h.room_for_emplace hFew')
      exact ⟨table', hReturns.map Prod.fst, hStores⟩
  | erase key =>
      obtain ⟨table', count, hReturns, hStores, _⟩ := h.doEraseKey_returns key
      exact ⟨table', hReturns.map Prod.fst, hStores⟩
  | reserve size =>
      obtain ⟨table', hReturns, hValues, hSound⟩ := h.reserve_returns hLoad hFew hMax hFit
      exact ⟨table', hReturns, hSound, hValues ▸ h.finds⟩
  | rehash count =>
      obtain ⟨table', hReturns, hValues, hSound⟩ := h.rehash_returns hLoad hFew hMax hFit
      exact ⟨table', hReturns, hSound, hValues ▸ h.finds⟩
  | clear => exact ⟨_, ReturnsTo.pure _, h.toSound.clear, Blueprint.Finds.empty⟩

end Stores

theorem run_concat (fuel : Nat) (ops : List (StdOp K V)) (op : StdOp K V) :
    run maxLoad bp fuel (ops ++ [op]) =
      (run maxLoad bp fuel ops).bind fun table => call maxLoad bp fuel table op := by
  simp [run, List.foldlM_append, Option.bind_eq_bind]

/-- A run of calls with few enough pairs at a time returns. -/
theorem run_returns (hLow : 1 / 256 ≤ maxLoad) (hLoad : maxLoad < 1) {ops : List (StdOp K V)}
    (hFew : bp.AtMost bp.applyStd pairLimit ops) (hFit : ∀ op ∈ ops, RequestFits maxLoad op) :
    ∃ table, ReturnsTo (fun fuel => run maxLoad bp fuel ops) table ∧
      Stores maxLoad bp table (bp.stdMapOf ops) := by
  induction ops using List.reverseRecOn with
  | nil => exact ⟨_, ReturnsTo.pure _, sound_createTable maxLoad bp, Blueprint.Finds.empty⟩
  | append_singleton ops op ih =>
      rw [List.forall_mem_append] at hFit
      obtain ⟨table, hRun, hStores⟩ := ih hFew.left hFit.1
      have hCard := hFew.left.card_le hStores.finds hStores.nodup
      obtain ⟨table', hCall, hStores'⟩ := hStores.call_returns hLow hLoad op
        (hFit.2 op (List.mem_singleton_self op)) hCard fun stored hFinds hNodup => by
          rw [← bp.stdMapOf_concat] at hFinds
          exact hFew.card_le hFinds hNodup
      simp only [run_concat]
      exact ⟨table', hRun.bind hCall, bp.stdMapOf_concat ops op ▸ hStores'⟩

/-- The table refines a finite map. Every run of calls with few enough pairs at a
time returns, an iteration lists every pair of the map once, and lookups,
erasures and insertions end and tell what the map says of their keys. -/
theorem unordered_dense_refines (hLow : 1 / 256 ≤ maxLoad) (hLoad : maxLoad < 1)
    {ops : List (StdOp K V)} (hFew : bp.AtMost bp.applyStd pairLimit ops)
    (hFit : ∀ op ∈ ops, RequestFits maxLoad op) :
    ∃ table, ReturnsTo (fun fuel => run maxLoad bp fuel ops) table ∧
      Serves bp table (bp.stdMapOf ops) ∧
      (∀ key, ∃ table', ReturnsTo (fun fuel => table.doEraseKey bp fuel key)
          (table', if (bp.stdMapOf ops key).isSome then 1 else 0) ∧
        Serves bp table' (bp.remove (bp.stdMapOf ops) key)) ∧
      ∀ key val, bp.AtMost bp.applyStd pairLimit (ops ++ [.tryEmplace key val]) →
        ∃ table' v, ReturnsTo (fun fuel => table.doTryEmplace maxLoad bp fuel key val)
            (table', v, (bp.stdMapOf ops key).isNone) ∧
          Serves bp table' (bp.stdMapOf (ops ++ [.tryEmplace key val])) ∧
          table'.values[v]? = bp.stdMapOf (ops ++ [.tryEmplace key val]) key := by
  obtain ⟨table, hRun, hStores⟩ := run_returns hLow hLoad hFew hFit
  have hCard := hFew.card_le hStores.finds hStores.nodup
  refine ⟨table, hRun, hStores.serves, fun key => ?_, fun key val hFew' => ?_⟩
  · obtain ⟨table', count, hReturns, hStores', rfl⟩ := hStores.doEraseKey_returns key
    exact ⟨table', hReturns, hStores'.serves⟩
  · obtain ⟨table', v, hv, inserted, hReturns, hKey, hStores', _, rfl⟩ :=
      hStores.doTryEmplace_returns hLoad hCard key val (hStores.room_for_emplace
        fun stored hFinds hNodup => by
          rw [← bp.stdMapOf_concat] at hFinds
          exact hFew'.card_le hFinds hNodup)
    rw [bp.stdMapOf_concat]
    refine ⟨table', v, hReturns, hStores'.serves, ?_⟩
    rw [List.getElem?_eq_getElem hv, (hStores'.finds key _).mpr
      ⟨Multiset.mem_coe.mpr (List.getElem_mem hv), bp.cmprKeys_symm hKey⟩]

/-- Keys that share a bucket and a fingerprint, one of which is erased and assigned again. -/
def sample : List (StdOp (BitVec 32) Nat) :=
  [.assign 1 10, .assign 9 20, .tryEmplace 1 30, .reserve 100, .erase 1, .assign 1 11, .rehash 0]

theorem requestFits_sample : ∀ op ∈ sample, RequestFits (7 / 8) op := by
  have hMax : pairLimit ≤ capacityOf (7 / 8) maxSize := pairLimit_le (by norm_num)
  have hFits (n : Nat) (hn : n ≤ 100) : min n maxSize ≤ capacityOf (7 / 8) maxSize := by
    apply (min_le_left n maxSize).trans (hn.trans _)
    exact (show 100 ≤ pairLimit by simp [pairLimit]).trans hMax
  simp only [sample, List.forall_mem_cons, RequestFits, true_and]
  exact ⟨hFits 100 (Nat.le_refl _), hFits 0 (Nat.zero_le _), by simp⟩

theorem atMost_sample :
    (Blueprint.ofEq BitVec.toNat 0).AtMost (Blueprint.ofEq BitVec.toNat 0).applyStd pairLimit
      sample :=
  Blueprint.AtMost.of_length (Blueprint.applyStd_addsOne _) (by simp [sample, pairLimit])

theorem unordered_dense_refines_sample : ∃ table, ReturnsTo (fun fuel =>
      run (7 / 8) (Blueprint.ofEq BitVec.toNat 0) fuel sample) table ∧
    Serves (Blueprint.ofEq BitVec.toNat 0) table
      ((Blueprint.ofEq BitVec.toNat 0).stdMapOf sample) := by
  obtain ⟨table, hRun, hServes, _⟩ := unordered_dense_refines (by norm_num) (by norm_num)
    atMost_sample requestFits_sample
  exact ⟨table, hRun, hServes⟩

end HashBench.UnorderedDense
