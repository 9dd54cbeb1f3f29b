import HashBench.Tommyds.Chained
import Mathlib.Data.Nat.Bitwise

/-! The `tommyds_dyn` shim over `tommy_hashdyn`, which doubles or halves its
bucket vector whenever the number of elements crosses a bound. -/
namespace HashBench.Tommyds

open Iteration

variable {K V : Type*}

/-- `TOMMY_HASHDYN_BIT`. -/
def tommyHashdynBit : Nat := 4

structure TommyHashdyn (K V : Type*) where
  bucket : Nat → Chain K V
  bucketMax : Nat
  bucketMask : Nat
  count : Nat
  bucketBit : Nat

def tommyHashdynInit : TommyHashdyn K V where
  bucketBit := tommyHashdynBit
  bucketMax := 1 <<< tommyHashdynBit
  bucketMask := 1 <<< tommyHashdynBit - 1
  bucket := fun _ => []
  count := 0

section Model

/- What `malloc` leaves in a new bucket vector. -/
variable (garbage : Nat → Chain K V) (bp : Blueprint K V)

/-- Reinsert one node while growing. -/
def reinsert (newBucketMask : Nat) (newBucket : Nat → Chain K V) (j : Node K V) :
    Nat → Chain K V :=
  let pos := j.index &&& newBucketMask
  if newBucket pos ≠ [] then
    Function.update newBucket pos (tommyListInsertTailNotEmpty (newBucket pos) j)
  else Function.update newBucket pos (tommyListInsertFirst j)

/-- The new bucket vector after the first rounds of the grow loop. -/
def growLoop (t : TommyHashdyn K V) (newBucketMask : Nat) : Nat → Nat → Chain K V
  | 0 => garbage
  | i + 1 =>
      let newBucket := Function.update (growLoop t newBucketMask i) i []
      let newBucket := Function.update newBucket (i + t.bucketMax) []
      (t.bucket i).foldl (reinsert newBucketMask) newBucket

/-- The new bucket vector after the first rounds of the shrink loop. -/
def shrinkLoop (t : TommyHashdyn K V) (newBucketMax : Nat) : Nat → Nat → Chain K V
  | 0 => garbage
  | i + 1 => Function.update (shrinkLoop t newBucketMax i) i
      (tommyListConcat (t.bucket i) (t.bucket (i + newBucketMax)))

def tommyHashdynResize (t : TommyHashdyn K V) (newBucketBit : Nat) : TommyHashdyn K V :=
  let newBucketMax := 1 <<< newBucketBit
  let newBucketMask := newBucketMax - 1
  { t with
    bucketBit := newBucketBit
    bucketMax := newBucketMax
    bucketMask := newBucketMask
    bucket :=
      if newBucketBit > t.bucketBit then growLoop garbage t newBucketMask t.bucketMax
      else shrinkLoop garbage t newBucketMax newBucketMax }

def hashdynGrowStep (t : TommyHashdyn K V) : TommyHashdyn K V :=
  if t.count ≥ t.bucketMax / 2 then tommyHashdynResize garbage t (t.bucketBit + 1) else t

def hashdynShrinkStep (t : TommyHashdyn K V) : TommyHashdyn K V :=
  if t.count ≤ t.bucketMax / 8 ∧ t.bucketBit > tommyHashdynBit then
    tommyHashdynResize garbage t (t.bucketBit - 1)
  else t

def tommyHashdynInsert (t : TommyHashdyn K V) (data : Entry K V) (hash : Nat) :
    TommyHashdyn K V :=
  let pos := hash &&& t.bucketMask
  hashdynGrowStep garbage
    { t with
      bucket := Function.update t.bucket pos (tommyListInsertTail (t.bucket pos) ⟨hash, data⟩)
      count := t.count + 1 }

/-- `tommy_hashdyn_remove`; a table without a match is left alone. -/
def tommyHashdynRemove (t : TommyHashdyn K V) (key : K) (hash : Nat) : TommyHashdyn K V :=
  let pos := hash &&& t.bucketMask
  match chainRemove bp key (t.bucket pos) with
  | some chain => hashdynShrinkStep garbage
      { t with bucket := Function.update t.bucket pos chain, count := t.count - 1 }
  | none => t

def tommyHashdynBucket (t : TommyHashdyn K V) (hash : Nat) : Chain K V :=
  t.bucket (hash &&& t.bucketMask)

namespace TommydsDyn

def createTable : TommyHashdyn K V := tommyHashdynInit

def insert (table : TommyHashdyn K V) (key : K) : TommyHashdyn K V :=
  let hash := hashOf bp key
  match chainUpdate bp key (tommyHashdynBucket table hash) with
  | some chain =>
      { table with bucket := Function.update table.bucket (hash &&& table.bucketMask) chain }
  | none => tommyHashdynInsert garbage table ⟨key, bp.valueType⟩ hash

def erase (table : TommyHashdyn K V) (key : K) : TommyHashdyn K V :=
  tommyHashdynRemove garbage bp table key (hashOf bp key)

/-- `Iterator::advance` over all `bucket_max` buckets. -/
def incrementItr : Iterator (TommyHashdyn K V) K V → Iterator (TommyHashdyn K V) K V :=
  Iterator.advance TommyHashdyn.bucketMax TommyHashdyn.bucket

def find (table : TommyHashdyn K V) (key : K) : Iterator (TommyHashdyn K V) K V :=
  let hash := hashOf bp key
  let bucketIdx := hash &&& table.bucketMask
  match chainFind bp key (tommyHashdynBucket table hash) with
  | [] => Iterator.new none
  -- the bucket of the node itself, where `advance` expects the next one
  | node => { tablePtr := some table, bucketIdx := bucketIdx, nodePtr := node }

def beginItr (table : TommyHashdyn K V) : Iterator (TommyHashdyn K V) K V :=
  incrementItr (Iterator.new (some table))

def call (table : TommyHashdyn K V) : Op K → TommyHashdyn K V
  | .insert key => insert garbage bp table key
  | .erase key => erase garbage bp table key

/-- The table after these calls on a fresh one. -/
def run (ops : List (Op K)) : TommyHashdyn K V := ops.foldl (call garbage bp) createTable

end TommydsDyn

end Model

section Resize

variable (garbage : Nat → Chain K V)

theorem reinsert_foldl (mask : Nat) (chain : Chain K V) (newBucket : Nat → Chain K V)
    (p : Nat) :
    chain.foldl (reinsert mask) newBucket p =
      newBucket p ++ chain.filter (fun j => j.index &&& mask == p) := by
  induction chain generalizing newBucket with
  | nil => simp
  | cons j rest ih =>
      rw [List.foldl_cons, ih, List.filter_cons]
      have hStep : reinsert mask newBucket j =
          Function.update newBucket (j.index &&& mask) (newBucket (j.index &&& mask) ++ [j]) := by
        by_cases hEmpty : newBucket (j.index &&& mask) = []
        · simp [reinsert, hEmpty, tommyListInsertFirst]
        · simp [reinsert, hEmpty, tommyListInsertTailNotEmpty]
      rw [hStep]
      by_cases hp : p = j.index &&& mask
      · subst hp
        simp
      · rw [Function.update_of_ne hp]
        simp [Ne.symm hp]

/-- Each bucket is split by the next bit of the stored hashes. -/
theorem growLoop_spec {t : TommyHashdyn K V} {k : Nat} (hMax : t.bucketMax = 2 ^ k)
    (hPlaced : ∀ i < 2 ^ k, ∀ node ∈ t.bucket i, node.index % 2 ^ k = i) {count : Nat}
    (hCount : count ≤ 2 ^ k) {q : Nat} (hq : q < count) :
    growLoop garbage t (2 ^ (k + 1) - 1) count q =
        (t.bucket q).filter (fun j => j.index % 2 ^ (k + 1) == q) ∧
      growLoop garbage t (2 ^ (k + 1) - 1) count (q + 2 ^ k) =
        (t.bucket q).filter (fun j => j.index % 2 ^ (k + 1) == q + 2 ^ k) := by
  have hPos : 0 < 2 ^ k := Nat.two_pow_pos _
  induction count with
  | zero => omega
  | succ i ih =>
      simp only [growLoop, reinsert_foldl, Nat.and_two_pow_sub_one_eq_mod, hMax]
      by_cases hEq : q = i
      · subst hEq
        rw [Function.update_of_ne (by omega), Function.update_self, Function.update_self]
        exact ⟨rfl, rfl⟩
      · have hOther (p : Nat) (hp : p % 2 ^ k ≠ i) :
            (t.bucket i).filter (fun j => j.index % 2 ^ (k + 1) == p) = [] := by
          rw [List.filter_eq_nil_iff]
          intro j hj hIndex
          apply hp
          rw [← hPlaced i (by omega) j hj, ← beq_iff_eq.mp hIndex, pow_succ, Nat.mod_mul_right_mod]
        obtain ⟨hLow, hHigh⟩ := ih (by omega) (by omega)
        have hqMod : q % 2 ^ k = q := Nat.mod_eq_of_lt (by omega)
        rw [hOther q (by omega), hOther (q + 2 ^ k) (by rw [Nat.add_mod_right]; omega),
          List.append_nil, List.append_nil, Function.update_of_ne (by omega),
          Function.update_of_ne (by omega), Function.update_of_ne (by omega),
          Function.update_of_ne (by omega)]
        exact ⟨hLow, hHigh⟩

theorem shrinkLoop_spec {t : TommyHashdyn K V} {m count q : Nat} (hq : q < count) :
    shrinkLoop garbage t m count q = t.bucket q ++ t.bucket (q + m) := by
  induction count with
  | zero => omega
  | succ i ih =>
      rw [shrinkLoop, tommyListConcat_eq]
      by_cases hEq : q = i
      · subst hEq
        rw [Function.update_self]
      · rw [Function.update_of_ne hEq]
        exact ih (by omega)

end Resize

/-- The invariant of a table that stores exactly the present keys. -/
structure HashdynInv (bp : Blueprint K V) (t : TommyHashdyn K V) (present : K → Bool) :
    Prop where
  bit_le : tommyHashdynBit ≤ t.bucketBit
  max_eq : t.bucketMax = 2 ^ t.bucketBit
  mask_eq : t.bucketMask = 2 ^ t.bucketBit - 1
  chained : Chained bp t.bucket (2 ^ t.bucketBit) (· % 2 ^ t.bucketBit) present

namespace HashdynInv

variable {garbage : Nat → Chain K V} {bp : Blueprint K V} {t : TommyHashdyn K V}
  {present : K → Bool}

theorem init : HashdynInv bp (tommyHashdynInit : TommyHashdyn K V) (fun _ => false) where
  bit_le := Nat.le_refl _
  max_eq := rfl
  mask_eq := rfl
  chained := Chained.empty (fun _ _ => rfl) (fun _ => Nat.mod_lt _ (Nat.two_pow_pos _))

theorem resize_grow (h : HashdynInv bp t present) :
    HashdynInv bp (tommyHashdynResize garbage t (t.bucketBit + 1)) present := by
  have hBucket : (tommyHashdynResize garbage t (t.bucketBit + 1)).bucket =
      growLoop garbage t (2 ^ (t.bucketBit + 1) - 1) (2 ^ t.bucketBit) := by
    simp [tommyHashdynResize, Nat.one_shiftLeft, h.max_eq]
  have hLoop {q : Nat} (hq : q < 2 ^ t.bucketBit) :=
    growLoop_spec garbage h.max_eq h.chained.placed (Nat.le_refl _) hq
  have hDouble : 2 ^ (t.bucketBit + 1) = 2 ^ t.bucketBit + 2 ^ t.bucketBit := by
    rw [pow_succ, mul_two]
  refine ⟨Nat.le_succ_of_le h.bit_le, Nat.one_shiftLeft _, ?_, ?_⟩
  · rw [tommyHashdynResize, Nat.one_shiftLeft]
  · refine h.chained.rehash ?_ (fun hash => Nat.mod_lt _ (Nat.two_pow_pos _))
      fun i hi node hNode => ?_
    · change nodes _ (2 ^ (t.bucketBit + 1)) = _
      rw [hBucket, hDouble, nodes_double, ← hDouble]
      refine Finset.sum_congr rfl fun q hq => ?_
      rw [(hLoop (Finset.mem_range.mp hq)).1, (hLoop (Finset.mem_range.mp hq)).2,
        Multiset.coe_add, Multiset.coe_eq_coe]
      refine List.Perm.trans (List.Perm.append_left _ (List.Perm.of_eq ?_))
        (List.filter_append_perm (fun j : Node K V => j.index % 2 ^ (t.bucketBit + 1) == q) _)
      refine List.filter_congr fun j hj => ?_
      have hIndex : j.index % 2 ^ t.bucketBit = q :=
        h.chained.placed q (Finset.mem_range.mp hq) j hj
      have hPos : 0 < 2 ^ t.bucketBit := Nat.two_pow_pos _
      rcases mod_pow_succ j.index t.bucketBit with hLow | hHigh
      · simp [hLow, hIndex]
      · simp [hHigh, hIndex]
    · rw [hBucket] at hNode
      change i < 2 ^ (t.bucketBit + 1) at hi
      change node.index % 2 ^ (t.bucketBit + 1) = i
      by_cases hLow : i < 2 ^ t.bucketBit
      · rw [(hLoop hLow).1] at hNode
        simpa using (List.mem_filter.mp hNode).2
      · obtain ⟨q, rfl⟩ := Nat.exists_eq_add_of_le' (Nat.le_of_not_lt hLow)
        rw [(hLoop (by omega)).2] at hNode
        simpa using (List.mem_filter.mp hNode).2

theorem resize_shrink (h : HashdynInv bp t present) (hBit : tommyHashdynBit < t.bucketBit) :
    HashdynInv bp (tommyHashdynResize garbage t (t.bucketBit - 1)) present := by
  obtain ⟨k, hk⟩ : ∃ k, t.bucketBit = k + 1 := ⟨t.bucketBit - 1, by omega⟩
  have hBucket : (tommyHashdynResize garbage t k).bucket = shrinkLoop garbage t (2 ^ k) (2 ^ k) := by
    simp [tommyHashdynResize, Nat.one_shiftLeft, hk]
  have hChained := h.chained
  rw [hk] at hChained ⊢
  rw [Nat.add_sub_cancel]
  refine ⟨by show tommyHashdynBit ≤ k; omega, Nat.one_shiftLeft _, ?_, ?_⟩
  · rw [tommyHashdynResize, Nat.one_shiftLeft]
  · refine hChained.rehash ?_ (fun hash => Nat.mod_lt _ (Nat.two_pow_pos _)) fun i hi node hNode => ?_
    · change nodes _ (2 ^ k) = _
      rw [hBucket, pow_succ, mul_two, nodes_double]
      refine Finset.sum_congr rfl fun q hq => ?_
      rw [shrinkLoop_spec garbage (Finset.mem_range.mp hq), Multiset.coe_add]
    · change i < 2 ^ k at hi
      change node.index % 2 ^ k = i
      rw [hBucket, shrinkLoop_spec garbage hi] at hNode
      have hMod : node.index % 2 ^ k = node.index % 2 ^ (k + 1) % 2 ^ k := by
        rw [pow_succ, Nat.mod_mul_right_mod]
      rw [hMod]
      rcases List.mem_append.mp hNode with hLow | hHigh
      · rw [hChained.placed i (by rw [pow_succ]; omega) node hLow, Nat.mod_eq_of_lt hi]
      · rw [hChained.placed (i + 2 ^ k) (by rw [pow_succ]; omega) node hHigh, Nat.add_mod_right,
          Nat.mod_eq_of_lt hi]

theorem growStep (h : HashdynInv bp t present) :
    HashdynInv bp (hashdynGrowStep garbage t) present := by
  unfold hashdynGrowStep
  split
  · exact h.resize_grow
  · exact h

theorem shrinkStep (h : HashdynInv bp t present) :
    HashdynInv bp (hashdynShrinkStep garbage t) present := by
  unfold hashdynShrinkStep
  split
  · rename_i hShrink
    exact h.resize_shrink hShrink.2
  · exact h

theorem and_mask (h : HashdynInv bp t present) (hash : Nat) :
    hash &&& t.bucketMask = hash % 2 ^ t.bucketBit := by
  rw [h.mask_eq, Nat.and_two_pow_sub_one_eq_mod]

theorem insert (h : HashdynInv bp t present) (key : K) :
    HashdynInv bp (TommydsDyn.insert garbage bp t key) (bp.apply present (.insert key)) := by
  rcases h.chained.walk key with
    ⟨before, node, after, hSplit, _, hKey, _, _, hUpdate, _⟩ | ⟨_, hAbsent, _, hUpdate, _⟩
  · simp only [TommydsDyn.insert, tommyHashdynBucket, h.and_mask, hUpdate]
    exact ⟨h.bit_le, h.max_eq, h.mask_eq, h.chained.update hSplit hKey⟩
  · simp only [TommydsDyn.insert, tommyHashdynBucket, tommyHashdynInsert, h.and_mask, hUpdate,
      tommyListInsertTail_eq]
    exact growStep ⟨h.bit_le, h.max_eq, h.mask_eq, h.chained.append _ hAbsent⟩

theorem erase (h : HashdynInv bp t present) (key : K) :
    HashdynInv bp (TommydsDyn.erase garbage bp t key) (bp.apply present (.erase key)) := by
  rcases h.chained.walk key with
    ⟨before, node, after, hSplit, _, hKey, _, _, _, hRemove⟩ | ⟨_, hAbsent, _, _, hRemove⟩
  · simp only [TommydsDyn.erase, tommyHashdynRemove, h.and_mask, hRemove]
    exact shrinkStep ⟨h.bit_le, h.max_eq, h.mask_eq, h.chained.unlink hSplit hKey⟩
  · simp only [TommydsDyn.erase, tommyHashdynRemove, h.and_mask, hRemove]
    exact ⟨h.bit_le, h.max_eq, h.mask_eq, h.chained.skip hAbsent⟩

/-- Every run keeps the invariant, whatever new memory contains. -/
theorem run (garbage : Nat → Chain K V) (bp : Blueprint K V) (ops : List (Op K)) :
    HashdynInv bp (TommydsDyn.run garbage bp ops) (bp.present ops) := by
  induction ops using List.reverseRecOn with
  | nil => exact init
  | append_singleton ops op ih =>
      rw [bp.present_concat, TommydsDyn.run, List.foldl_append, List.foldl_cons, List.foldl_nil]
      cases op with
      | insert key => exact ih.insert key
      | erase key => exact ih.erase key

/-- The full scan reads the present keys, each once. -/
theorem beginItr_visits (h : HashdynInv bp t present) :
    ∃ order, bp.Enumerates order present ∧
      Visits Iterator.isItrValid TommydsDyn.incrementItr Iterator.getKeyFromItr
        (TommydsDyn.beginItr t) (order.map some) := by
  refine ⟨_, h.chained.enumerates, ?_⟩
  rw [← keysRead_eq, ← h.max_eq]
  exact Iterator.visits_begin t

/-- From a found node the walk reads the rest of its chain, then the whole
chain of the same bucket once more, then the later buckets. -/
theorem find_visits (h : HashdynInv bp t present) {key : K} (hKey : present key = true) :
    ∃ before node after i, t.bucket i = before ++ node :: after ∧ i < t.bucketMax ∧
      bp.cmprKeys key node.data.keyK = true ∧
      (TommydsDyn.find bp t key).nodePtr = node :: after ∧
      Visits Iterator.isItrValid TommydsDyn.incrementItr Iterator.getKeyFromItr
        (TommydsDyn.find bp t key)
        (keysRead (node :: after ++ (before ++ node :: after) ++
          scanFrom t.bucket t.bucketMax (i + 1))) := by
  rcases h.chained.walk key with
    ⟨before, node, after, hSplit, _, hMatch, _, hFind, _⟩ | ⟨hAbsent, _⟩
  · have hBound : hashOf bp key % 2 ^ t.bucketBit < t.bucketMax := by
      rw [h.max_eq]
      exact h.chained.addr_lt _
    refine ⟨before, node, after, hashOf bp key % 2 ^ t.bucketBit, hSplit, hBound, hMatch, ?_, ?_⟩
    · simp only [TommydsDyn.find, tommyHashdynBucket, h.and_mask, hFind]
    · simp only [TommydsDyn.find, tommyHashdynBucket, h.and_mask, hFind]
      rw [List.append_assoc, ← hSplit, ← scanFrom_of_lt t.bucket hBound]
      exact Iterator.visits _ rfl (fun hNil => by simp at hNil)
  · simp [hKey] at hAbsent

end HashdynInv

/-- In no run does iteration from a found key resume the full scan: the key's
own bucket is walked twice. -/
theorem tommydsDyn_find_never_resumes (garbage : Nat → Chain K V) (bp : Blueprint K V)
    (ops : List (Op K)) (key : K) (hPresent : bp.present ops key = true) :
    ¬ Resumes Iterator.isItrValid TommydsDyn.incrementItr Iterator.getKeyFromItr
      (TommydsDyn.beginItr (TommydsDyn.run garbage bp ops))
      (TommydsDyn.find bp (TommydsDyn.run garbage bp ops) key) (ReadsKey bp key) := by
  have hInv := HashdynInv.run garbage bp ops
  obtain ⟨order, hOrder, hScan⟩ := hInv.beginItr_visits
  obtain ⟨before, node, after, i, _, _, _, _, hWalk⟩ := hInv.find_visits hPresent
  refine not_resumes_of_nodup hScan (hOrder.nodup.map (Option.some_injective K)) hWalk ?_
  -- the found node is read first and again on the second pass over its chain
  rw [keysRead, List.cons_append, List.cons_append, List.map_cons, List.nodup_cons]
  exact fun hNodup => hNodup.1 (by simp)

theorem tommydsDyn_find_never_resumes_singleton :
    ¬ Resumes Iterator.isItrValid TommydsDyn.incrementItr Iterator.getKeyFromItr
      (TommydsDyn.beginItr (TommydsDyn.run (fun _ => []) (Blueprint.ofEq id ()) [.insert 3]))
      (TommydsDyn.find (Blueprint.ofEq id ())
        (TommydsDyn.run (fun _ => []) (Blueprint.ofEq id ()) [.insert 3]) 3)
      (ReadsKey (Blueprint.ofEq (id : Nat → Nat) ()) 3) :=
  tommydsDyn_find_never_resumes _ _ _ 3 (by decide)

/-- A table of one key: the full scan reads it once, and the walk from the
found key reads it twice. -/
theorem tommydsDyn_find_reads_twice :
    (Blueprint.ofEq (id : Nat → Nat) ()).present [.insert 3] 3 = true ∧
      Visits Iterator.isItrValid TommydsDyn.incrementItr Iterator.getKeyFromItr
        (TommydsDyn.beginItr
          (TommydsDyn.run (fun _ => []) (Blueprint.ofEq (id : Nat → Nat) ()) [.insert 3]))
        [some 3] ∧
      Visits Iterator.isItrValid TommydsDyn.incrementItr Iterator.getKeyFromItr
        (TommydsDyn.find (Blueprint.ofEq (id : Nat → Nat) ())
          (TommydsDyn.run (fun _ => []) (Blueprint.ofEq (id : Nat → Nat) ()) [.insert 3]) 3)
        [some 3, some 3] ∧
      ¬ Resumes Iterator.isItrValid TommydsDyn.incrementItr Iterator.getKeyFromItr
        (TommydsDyn.beginItr
          (TommydsDyn.run (fun _ => []) (Blueprint.ofEq (id : Nat → Nat) ()) [.insert 3]))
        (TommydsDyn.find (Blueprint.ofEq (id : Nat → Nat) ())
          (TommydsDyn.run (fun _ => []) (Blueprint.ofEq (id : Nat → Nat) ()) [.insert 3]) 3)
        (ReadsKey (Blueprint.ofEq (id : Nat → Nat) ()) 3) := by
  have hScan : Visits Iterator.isItrValid TommydsDyn.incrementItr Iterator.getKeyFromItr
      (TommydsDyn.beginItr
        (TommydsDyn.run (fun _ => []) (Blueprint.ofEq (id : Nat → Nat) ()) [.insert 3]))
      [some 3] :=
    .cons (by decide) (by decide) (.done (by decide))
  have hWalk : Visits Iterator.isItrValid TommydsDyn.incrementItr Iterator.getKeyFromItr
      (TommydsDyn.find (Blueprint.ofEq (id : Nat → Nat) ())
        (TommydsDyn.run (fun _ => []) (Blueprint.ofEq (id : Nat → Nat) ()) [.insert 3]) 3)
      [some 3, some 3] :=
    .cons (by decide) (by decide) (.cons (by decide) (by decide) (.done (by decide)))
  exact ⟨by decide, hScan, hWalk, not_resumes_of_nodup hScan (by simp) hWalk (by simp)⟩

end HashBench.Tommyds
