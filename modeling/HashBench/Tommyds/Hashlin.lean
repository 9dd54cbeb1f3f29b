import HashBench.Tommyds.Chained
import Mathlib.Data.Nat.Bitwise

/-! The `tommyds_lin` shim over `tommy_hashlin`, which splits or merges a few
buckets in every call that changes the number of elements, and may turn back
before a reallocation is complete. -/
namespace HashBench.Tommyds

open Iteration

variable {K V : Type*}

/-- `TOMMY_HASHLIN_BIT`. -/
def tommyHashlinBit : Nat := 6

/-- The reallocation states `TOMMY_HASHLIN_STATE_*`. -/
inductive HashlinState where
  | stable
  | grow
  | shrink
  deriving DecidableEq, Repr

/-- `bucket i` names the segment that `bucket[i]` points into. A segment is
addressed by bucket positions, the pointer being offset by its first one. -/
structure TommyHashlin (K V : Type*) where
  segment : Nat → Nat → Chain K V
  bucket : Nat → Nat
  bucketMax : Nat
  bucketMask : Nat
  lowMax : Nat
  lowMask : Nat
  split : Nat
  count : Nat
  bucketBit : Nat
  state : HashlinState

def tommyHashlinStable (t : TommyHashlin K V) : TommyHashlin K V :=
  { t with state := .stable, lowMax := t.bucketMax, lowMask := t.bucketMask, split := 0 }

/-- The first `TOMMY_HASHLIN_BIT` pointers share one zeroed segment. -/
def tommyHashlinInit : TommyHashlin K V :=
  tommyHashlinStable
    { segment := fun _ _ => []
      bucket := fun _ => 0
      bucketMax := 1 <<< tommyHashlinBit
      bucketMask := 1 <<< tommyHashlinBit - 1
      lowMax := 0
      lowMask := 0
      split := 0
      count := 0
      bucketBit := tommyHashlinBit
      state := .stable }

/-- `tommy_hashlin_pos`, as a segment and a position in it. -/
def tommyHashlinPos (t : TommyHashlin K V) (pos : Nat) : Nat × Nat :=
  (t.bucket (Nat.log2 (pos ||| 1)), pos)

/-- The chain at a position. -/
def TommyHashlin.chainAt (t : TommyHashlin K V) (pos : Nat) : Chain K V :=
  t.segment (tommyHashlinPos t pos).1 (tommyHashlinPos t pos).2

/-- Write the chain at a position. -/
def TommyHashlin.setChain (t : TommyHashlin K V) (pos : Nat) (chain : Chain K V) :
    TommyHashlin K V :=
  let cell := tommyHashlinPos t pos
  { t with
    segment := Function.update t.segment cell.1 (Function.update (t.segment cell.1) cell.2 chain) }

/-- The position that `tommy_hashlin_bucket_ref` passes to `tommy_hashlin_pos`. -/
def bucketRefPos (t : TommyHashlin K V) (hash : Nat) : Nat :=
  let pos := hash &&& t.lowMask
  let highPos := hash &&& t.bucketMask
  if pos < t.split then highPos else pos

def tommyHashlinBucketRef (t : TommyHashlin K V) (hash : Nat) : Nat × Nat :=
  tommyHashlinPos t (bucketRefPos t hash)

def tommyHashlinBucket (t : TommyHashlin K V) (hash : Nat) : Chain K V :=
  t.segment (tommyHashlinBucketRef t hash).1 (tommyHashlinBucketRef t hash).2

/-- Flush one node into the low or the high of two chains. -/
def flush (mask : Nat) (split : Chain K V × Chain K V) (j : Node K V) : Chain K V × Chain K V :=
  if j.index &&& mask ≠ 0 then
    (split.1, if split.2 ≠ [] then tommyListInsertTailNotEmpty split.2 j
      else tommyListInsertFirst j)
  else
    (if split.1 ≠ [] then tommyListInsertTailNotEmpty split.1 j
      else tommyListInsertFirst j, split.2)

/-- One round of the grow loop: the next low bucket is split in two. -/
def splitBucket (t : TommyHashlin K V) : TommyHashlin K V :=
  let flushed := (t.chainAt t.split).foldl (flush t.lowMax) ([], [])
  let t' := (t.setChain t.split flushed.1).setChain (t.split + t.lowMax) flushed.2
  { t' with split := t.split + 1 }

/-- The grow loop. At most `low_max - split` rounds are left. -/
def growRounds (splitTarget : Nat) : Nat → TommyHashlin K V → TommyHashlin K V
  | 0, t => t
  | fuel + 1, t =>
      if t.split + t.lowMax < splitTarget then
        let t := splitBucket t
        if t.split = t.lowMax then tommyHashlinStable t else growRounds splitTarget fuel t
      else t

/-- One round of the shrink loop: the last high bucket is merged into its low one. -/
def mergeBucket (t : TommyHashlin K V) : TommyHashlin K V :=
  let split := t.split - 1
  let t' := t.setChain split (tommyListConcat (t.chainAt split) (t.chainAt (split + t.lowMax)))
  { t' with split := split }

/-- The end of a shrink: the last segment is freed. -/
def finishShrink (t : TommyHashlin K V) : TommyHashlin K V :=
  tommyHashlinStable
    { t with
      bucketBit := t.bucketBit - 1
      bucketMax := 1 <<< (t.bucketBit - 1)
      bucketMask := 1 <<< (t.bucketBit - 1) - 1 }

/-- The shrink loop. At most `split` rounds are left. -/
def shrinkRounds (splitTarget : Nat) : Nat → TommyHashlin K V → TommyHashlin K V
  | 0, t => t
  | fuel + 1, t =>
      if t.split + t.lowMax > splitTarget then
        let t := mergeBucket t
        if t.split = 0 then finishShrink t else shrinkRounds splitTarget fuel t
      else t

section Model

/- What `malloc` leaves in a new segment. -/
variable (garbage : Nat → Chain K V) (bp : Blueprint K V)

/-- Set up a grow from the stable state. The new segment is named by its bit. -/
def startGrow (t : TommyHashlin K V) : TommyHashlin K V :=
  { t with
    lowMax := t.bucketMax
    lowMask := t.bucketMask
    segment := Function.update t.segment t.bucketBit garbage
    bucket := Function.update t.bucket t.bucketBit t.bucketBit
    bucketBit := t.bucketBit + 1
    bucketMax := 1 <<< (t.bucketBit + 1)
    bucketMask := 1 <<< (t.bucketBit + 1) - 1
    split := 0 }

def hashlinGrowStep (t : TommyHashlin K V) : TommyHashlin K V :=
  let t :=
    if t.state ≠ .grow ∧ t.count > t.bucketMax / 2 then
      let t := if t.state = .stable then startGrow garbage t else t
      { t with state := .grow }
    else t
  if t.state = .grow then growRounds (2 * t.count) (t.lowMax - t.split) t else t

/-- Set up a shrink from the stable state. -/
def startShrink (t : TommyHashlin K V) : TommyHashlin K V :=
  { t with lowMax := t.bucketMax / 2, lowMask := t.bucketMask / 2, split := t.bucketMax / 2 }

def hashlinShrinkStep (t : TommyHashlin K V) : TommyHashlin K V :=
  let t :=
    if t.state ≠ .shrink ∧ t.count < t.bucketMax / 8 then
      if t.bucketBit > tommyHashlinBit then
        let t := if t.state = .stable then startShrink t else t
        { t with state := .shrink }
      else t
    else t
  if t.state = .shrink then shrinkRounds (8 * t.count) t.split t else t

def tommyHashlinInsert (t : TommyHashlin K V) (data : Entry K V) (hash : Nat) :
    TommyHashlin K V :=
  let t' := t.setChain (bucketRefPos t hash)
    (tommyListInsertTail (tommyHashlinBucket t hash) ⟨hash, data⟩)
  hashlinGrowStep garbage { t' with count := t.count + 1 }

/-- `tommy_hashlin_remove`; a table without a match is left alone. -/
def tommyHashlinRemove (t : TommyHashlin K V) (key : K) (hash : Nat) : TommyHashlin K V :=
  match chainRemove bp key (tommyHashlinBucket t hash) with
  | some chain =>
      let t' := t.setChain (bucketRefPos t hash) chain
      hashlinShrinkStep { t' with count := t.count - 1 }
  | none => t

namespace TommydsLin

def createTable : TommyHashlin K V := tommyHashlinInit

def insert (table : TommyHashlin K V) (key : K) : TommyHashlin K V :=
  let hash := hashOf bp key
  match chainUpdate bp key (tommyHashlinBucket table hash) with
  | some chain => table.setChain (bucketRefPos table hash) chain
  | none => tommyHashlinInsert garbage table ⟨key, bp.valueType⟩ hash

def erase (table : TommyHashlin K V) (key : K) : TommyHashlin K V :=
  tommyHashlinRemove bp table key (hashOf bp key)

/-- The number of active buckets. -/
def activeBucketCount (table : TommyHashlin K V) : Nat := table.lowMax + table.split

/-- `Iterator::advance` over the active buckets. -/
def incrementItr : Iterator (TommyHashlin K V) K V → Iterator (TommyHashlin K V) K V :=
  Iterator.advance activeBucketCount TommyHashlin.chainAt

/-- The bucket index that `find` computes by itself. -/
def findBucketIdx (table : TommyHashlin K V) (hash : Nat) : Nat :=
  let pos := hash &&& table.lowMask
  if pos < table.split then hash &&& table.bucketMask else pos

def find (table : TommyHashlin K V) (key : K) : Iterator (TommyHashlin K V) K V :=
  let bucketIdx := findBucketIdx table (hashOf bp key)
  match chainFind bp key (table.chainAt bucketIdx) with
  | [] => Iterator.new none
  -- the bucket after the node's own
  | node => { tablePtr := some table, bucketIdx := bucketIdx + 1, nodePtr := node }

def beginItr (table : TommyHashlin K V) : Iterator (TommyHashlin K V) K V :=
  incrementItr (Iterator.new (some table))

def call (table : TommyHashlin K V) : Op K → TommyHashlin K V
  | .insert key => insert garbage bp table key
  | .erase key => erase bp table key

/-- The table after these calls on a fresh one. -/
def run (ops : List (Op K)) : TommyHashlin K V := ops.foldl (call garbage bp) createTable

end TommydsLin

end Model

section LinearHashing

/-- The bucket of a hash when `s` of the `2 ^ l` low buckets are split. -/
def linAddr (l s hash : Nat) : Nat :=
  if hash % 2 ^ l < s then hash % 2 ^ (l + 1) else hash % 2 ^ l

theorem linAddr_lt (l s hash : Nat) : linAddr l s hash < 2 ^ l + s := by
  have hMod : hash % 2 ^ l < 2 ^ l := Nat.mod_lt _ (Nat.two_pow_pos _)
  unfold linAddr
  split
  · rcases mod_pow_succ hash l with h | h <;> omega
  · omega

/-- With every low bucket split, or none of twice as many, a hash addresses
the bucket of its residue. -/
theorem linAddr_full (l : Nat) : linAddr l (2 ^ l) = linAddr (l + 1) 0 := by
  funext hash
  have hMod : hash % 2 ^ l < 2 ^ l := Nat.mod_lt _ (Nat.two_pow_pos _)
  simp [linAddr, hMod]

/-- Splitting one more bucket moves only the hashes of that residue. -/
theorem linAddr_succ (l s hash : Nat) :
    linAddr l (s + 1) hash = if hash % 2 ^ l = s then hash % 2 ^ (l + 1) else linAddr l s hash := by
  unfold linAddr
  split_ifs <;> omega

theorem linAddr_residue {l s hash p : Nat} (hp : p < 2 ^ l) (h : linAddr l s hash = p) :
    hash % 2 ^ l = p := by
  unfold linAddr at h
  split at h
  · rcases mod_pow_succ hash l with hLow | hHigh <;> omega
  · exact h

/-- Masking with the low size tests the bit that tells the two halves apart. -/
theorem and_two_pow_eq_zero (x l : Nat) : x &&& 2 ^ l = 0 ↔ x % 2 ^ (l + 1) = x % 2 ^ l := by
  have hPos : 0 < 2 ^ l := Nat.two_pow_pos _
  rw [Nat.and_two_pow, pow_succ, Nat.mod_mul, Nat.testBit_eq_decide_div_mod_eq]
  rcases Nat.mod_two_eq_zero_or_one (x / 2 ^ l) with h | h
  · simp [h]
  · simp [h]

variable {bp : Blueprint K V} {bucket : Nat → Chain K V} {l s : Nat} {present : K → Bool}

theorem nodes_split (hs : s < 2 ^ l) (p : Node K V → Bool) :
    nodes (Function.update (Function.update bucket s ((bucket s).filter p)) (s + 2 ^ l)
      ((bucket s).filter (fun j => !p j))) (2 ^ l + (s + 1)) = nodes bucket (2 ^ l + s) := by
  have hLow : nodes (Function.update (Function.update bucket s ((bucket s).filter p)) (s + 2 ^ l)
      ((bucket s).filter (fun j => !p j))) (s + 2 ^ l) =
      nodes (Function.update bucket s ((bucket s).filter p)) (s + 2 ^ l) :=
    nodes_congr fun i hi => Function.update_of_ne (by omega) ..
  rw [← Nat.add_assoc, nodes_succ, Nat.add_comm (2 ^ l) s, Function.update_self, hLow]
  refine add_right_cancel (b := (bucket s : Multiset (Node K V))) ?_
  rw [add_right_comm, nodes_update bucket (by omega), add_assoc, Multiset.coe_add]
  exact congrArg _ (Multiset.coe_eq_coe.mpr (List.filter_append_perm p (bucket s)))

theorem nodes_merge (hs : s < 2 ^ l) :
    nodes (Function.update bucket s (bucket s ++ bucket (s + 2 ^ l))) (2 ^ l + s) =
      nodes bucket (2 ^ l + (s + 1)) := by
  refine add_right_cancel (b := (bucket s : Multiset (Node K V))) ?_
  rw [nodes_update bucket (by omega), ← Nat.add_assoc, nodes_succ, Nat.add_comm (2 ^ l) s,
    ← Multiset.coe_add, add_assoc, add_comm (bucket s : Multiset (Node K V))]

/-- One bucket split by the next hash bit. -/
theorem Chained.splitStep (h : Chained bp bucket (2 ^ l + s) (linAddr l s) present)
    (hs : s < 2 ^ l) :
    Chained bp (Function.update (Function.update bucket s
        ((bucket s).filter (fun j => j.index &&& 2 ^ l == 0))) (s + 2 ^ l)
        ((bucket s).filter (fun j => !(j.index &&& 2 ^ l == 0))))
      (2 ^ l + (s + 1)) (linAddr l (s + 1)) present := by
  refine h.rehash (nodes_split hs _) (linAddr_lt l (s + 1)) fun i hi node hNode => ?_
  have hResidue {j : Node K V} (hj : j ∈ bucket s) : j.index % 2 ^ l = s :=
    linAddr_residue hs (h.placed s (by omega) j hj)
  by_cases hHigh : i = s + 2 ^ l
  · subst hHigh
    rw [Function.update_self] at hNode
    obtain ⟨hMem, hBit⟩ := List.mem_filter.mp hNode
    have hNe : ¬ node.index % 2 ^ (l + 1) = node.index % 2 ^ l := by
      simpa [and_two_pow_eq_zero] using hBit
    rw [linAddr_succ, if_pos (hResidue hMem)]
    have hTwo := mod_pow_succ node.index l
    rw [hResidue hMem] at hNe hTwo
    exact hTwo.resolve_left hNe
  · rw [Function.update_of_ne hHigh] at hNode
    by_cases hLow : i = s
    · subst hLow
      rw [Function.update_self] at hNode
      obtain ⟨hMem, hBit⟩ := List.mem_filter.mp hNode
      have hEq : node.index % 2 ^ (l + 1) = node.index % 2 ^ l := by
        simpa [and_two_pow_eq_zero] using hBit
      rw [linAddr_succ, if_pos (hResidue hMem), hEq, hResidue hMem]
    · rw [Function.update_of_ne hLow] at hNode
      have hPlaced := h.placed i (by omega) node hNode
      rw [linAddr_succ, if_neg, hPlaced]
      intro hEq
      -- an unsplit residue addresses its own bucket
      rw [linAddr, if_neg (by omega)] at hPlaced
      omega

/-- Two buckets merged back into the low one. -/
theorem Chained.mergeStep (h : Chained bp bucket (2 ^ l + (s + 1)) (linAddr l (s + 1)) present)
    (hs : s < 2 ^ l) :
    Chained bp (Function.update bucket s (bucket s ++ bucket (s + 2 ^ l)))
      (2 ^ l + s) (linAddr l s) present := by
  refine h.rehash (nodes_merge hs) (linAddr_lt l s) fun i hi node hNode => ?_
  by_cases hLow : i = s
  · subst hLow
    rw [Function.update_self] at hNode
    have hResidue : node.index % 2 ^ l = i := by
      rcases List.mem_append.mp hNode with hMem | hMem
      · exact linAddr_residue hs (h.placed i (by omega) node hMem)
      · have hPlaced := h.placed (i + 2 ^ l) (by omega) node hMem
        have hMod : node.index % 2 ^ l < 2 ^ l := Nat.mod_lt _ (Nat.two_pow_pos _)
        unfold linAddr at hPlaced
        split at hPlaced
        · rcases mod_pow_succ node.index l with hLow | hHigh <;> omega
        · omega
    rw [linAddr, if_neg (by omega), hResidue]
  · rw [Function.update_of_ne hLow] at hNode
    have hPlaced := h.placed i (by omega) node hNode
    rw [linAddr_succ] at hPlaced
    split at hPlaced
    · rename_i hEq
      rcases mod_pow_succ node.index l with hRes | hRes <;> omega
    · exact hPlaced

end LinearHashing

section Cells

/-- Distinct positions are distinct cells, whatever segments they lie in. -/
theorem TommyHashlin.chainAt_setChain (t : TommyHashlin K V) (pos : Nat) (chain : Chain K V) :
    (t.setChain pos chain).chainAt = Function.update t.chainAt pos chain := by
  funext p
  by_cases hp : p = pos
  · subst hp
    simp [chainAt, setChain, tommyHashlinPos]
  · rw [Function.update_of_ne hp]
    simp only [chainAt, setChain, tommyHashlinPos]
    by_cases hSegment : t.bucket (Nat.log2 (p ||| 1)) = t.bucket (Nat.log2 (pos ||| 1))
    · rw [hSegment, Function.update_self, Function.update_of_ne hp]
    · rw [Function.update_of_ne hSegment]

theorem flush_foldl (mask : Nat) (chain low high : Chain K V) :
    chain.foldl (flush mask) (low, high) =
      (low ++ chain.filter (fun j => j.index &&& mask == 0),
        high ++ chain.filter (fun j => !(j.index &&& mask == 0))) := by
  induction chain generalizing low high with
  | nil => simp
  | cons j rest ih =>
      have hTail (list : Chain K V) : (if list ≠ [] then tommyListInsertTailNotEmpty list j
          else tommyListInsertFirst j) = list ++ [j] := by
        cases list <;> simp [tommyListInsertTailNotEmpty, tommyListInsertFirst]
      rw [List.foldl_cons, flush, hTail, hTail]
      by_cases hBit : j.index &&& mask = 0
      · simp [hBit, ih]
      · simp [hBit, ih]

theorem splitBucket_chainAt (t : TommyHashlin K V) :
    (splitBucket t).chainAt = Function.update
      (Function.update t.chainAt t.split
        ((t.chainAt t.split).filter (fun j => j.index &&& t.lowMax == 0)))
      (t.split + t.lowMax)
      ((t.chainAt t.split).filter (fun j => !(j.index &&& t.lowMax == 0))) := by
  rw [← TommyHashlin.chainAt_setChain, ← TommyHashlin.chainAt_setChain, splitBucket, flush_foldl]
  rfl

theorem mergeBucket_chainAt (t : TommyHashlin K V) :
    (mergeBucket t).chainAt = Function.update t.chainAt (t.split - 1)
      (t.chainAt (t.split - 1) ++ t.chainAt (t.split - 1 + t.lowMax)) := by
  rw [← TommyHashlin.chainAt_setChain, ← tommyListConcat_eq]
  rfl

/-- A new segment is met only at positions past the old table. -/
theorem startGrow_chainAt (garbage : Nat → Chain K V) {t : TommyHashlin K V}
    (hBucket : ∀ i, t.bucket i ≤ i) (hBit : 0 < t.bucketBit) {pos : Nat}
    (hPos : pos < 2 ^ t.bucketBit) : (startGrow garbage t).chainAt pos = t.chainAt pos := by
  have hOr : pos ||| 1 < 2 ^ t.bucketBit := Nat.or_lt_two_pow hPos (Nat.one_lt_two_pow (by omega))
  have hNe : pos ||| 1 ≠ 0 := by simp [Nat.or_eq_zero_iff]
  have hLog : Nat.log2 (pos ||| 1) < t.bucketBit := (Nat.log2_lt hNe).mpr hOr
  have hOld := hBucket (Nat.log2 (pos ||| 1))
  simp only [TommyHashlin.chainAt, tommyHashlinPos, startGrow]
  rw [Function.update_of_ne (Nat.ne_of_lt hLog) t.bucketBit t.bucket,
    Function.update_of_ne (by omega)]

end Cells

/-- What holds between any two rounds of a reallocation: the table stores
exactly the present keys, with `split` of its `2 ^ l` low buckets split. -/
structure HashlinBody (bp : Blueprint K V) (t : TommyHashlin K V) (l : Nat)
    (present : K → Bool) : Prop where
  bit_le : tommyHashlinBit ≤ l
  bucket_le : ∀ i, t.bucket i ≤ i
  lowMax_eq : t.lowMax = 2 ^ l
  lowMask_eq : t.lowMask = 2 ^ l - 1
  max_eq : t.bucketMax = 2 ^ t.bucketBit
  mask_eq : t.bucketMask = 2 ^ t.bucketBit - 1
  chained : Chained bp t.chainAt (2 ^ l + t.split) (linAddr l t.split) present
  count_eq : t.count = (nodes t.chainAt (2 ^ l + t.split)).card

/-- The invariant between calls. A reallocation is either complete or has
split some but not all of the low buckets. -/
structure HashlinInv (bp : Blueprint K V) (t : TommyHashlin K V) (l : Nat)
    (present : K → Bool) : Prop extends HashlinBody bp t l present where
  phase : (t.state = .stable ∧ t.bucketBit = l ∧ t.split = 0) ∨
    (t.state ≠ .stable ∧ t.bucketBit = l + 1 ∧ 0 < t.split ∧ t.split < 2 ^ l)

namespace HashlinBody

variable {bp : Blueprint K V} {t : TommyHashlin K V} {l : Nat} {present : K → Bool}

/-- The library's addressing, in the stable state and during a reallocation. -/
theorem bucketRefPos_eq (h : HashlinBody bp t l present)
    (hBit : t.split = 0 ∨ t.bucketBit = l + 1) (hash : Nat) :
    bucketRefPos t hash = linAddr l t.split hash := by
  rw [bucketRefPos, h.lowMask_eq, h.mask_eq, Nat.and_two_pow_sub_one_eq_mod,
    Nat.and_two_pow_sub_one_eq_mod, linAddr]
  rcases hBit with hNone | hBit
  · simp [hNone]
  · rw [hBit]

theorem splitBucket (h : HashlinBody bp t l present) (hSplit : t.split < 2 ^ l) :
    HashlinBody bp (splitBucket t) l present := by
  have hChain := splitBucket_chainAt t
  rw [h.lowMax_eq] at hChain
  refine ⟨h.bit_le, h.bucket_le, h.lowMax_eq, h.lowMask_eq, h.max_eq, h.mask_eq, ?_, ?_⟩
  · rw [hChain]
    exact h.chained.splitStep hSplit
  · rw [hChain]
    exact h.count_eq.trans (congrArg Multiset.card (nodes_split hSplit _).symm)

theorem mergeBucket (h : HashlinBody bp t l present) (hPos : 0 < t.split)
    (hSplit : t.split ≤ 2 ^ l) : HashlinBody bp (mergeBucket t) l present := by
  obtain ⟨s, hs⟩ : ∃ s, t.split = s + 1 := ⟨t.split - 1, by omega⟩
  have hChain := mergeBucket_chainAt t
  have hChained := h.chained
  have hCount := h.count_eq
  rw [h.lowMax_eq, hs, Nat.add_sub_cancel] at hChain
  rw [hs] at hChained hCount
  have hNext : (Tommyds.mergeBucket t).split = s := by
    show t.split - 1 = s
    omega
  refine ⟨h.bit_le, h.bucket_le, h.lowMax_eq, h.lowMask_eq, h.max_eq, h.mask_eq, ?_, ?_⟩
  · rw [hChain, hNext]
    exact hChained.mergeStep (by omega)
  · rw [hChain, hNext]
    exact hCount.trans (congrArg Multiset.card (nodes_merge (by omega)).symm)

/-- With every low bucket split the table is stable at twice the size. -/
theorem stable_up (h : HashlinBody bp t l present) (hBit : t.bucketBit = l + 1)
    (hSplit : t.split = 2 ^ l) : HashlinInv bp (tommyHashlinStable t) (l + 1) present := by
  have hSize : 2 ^ l + t.split = 2 ^ (l + 1) + 0 := by
    rw [hSplit, pow_succ]
    omega
  have hChained := h.chained
  have hCount := h.count_eq
  rw [hSize] at hChained hCount
  rw [hSplit, linAddr_full] at hChained
  have hMax := h.max_eq
  have hMask := h.mask_eq
  rw [hBit] at hMax hMask
  exact ⟨⟨Nat.le_succ_of_le h.bit_le, h.bucket_le, hMax, hMask, h.max_eq, h.mask_eq, hChained,
    hCount⟩, Or.inl ⟨rfl, hBit, rfl⟩⟩

/-- With no low bucket split the table is stable at half the size. -/
theorem stable_down (h : HashlinBody bp t l present) (hBit : t.bucketBit = l + 1)
    (hSplit : t.split = 0) : HashlinInv bp (finishShrink t) l present := by
  have hChained := h.chained
  have hCount := h.count_eq
  rw [hSplit] at hChained hCount
  have hPred : t.bucketBit - 1 = l := by omega
  have hMax : (finishShrink t).bucketMax = 2 ^ l := by
    simp [finishShrink, tommyHashlinStable, hPred, Nat.one_shiftLeft]
  have hMask : (finishShrink t).bucketMask = 2 ^ l - 1 := by
    simp [finishShrink, tommyHashlinStable, hPred, Nat.one_shiftLeft]
  have hBit' : (finishShrink t).bucketBit = l := hPred
  refine ⟨⟨h.bit_le, h.bucket_le, hMax, hMask, ?_, ?_, hChained, hCount⟩,
    Or.inl ⟨rfl, hBit', rfl⟩⟩
  · rw [hBit', hMax]
  · rw [hBit', hMask]

/-- The grow loop ends between two splits or in the stable state. -/
theorem growRounds (splitTarget : Nat) {fuel : Nat} (h : HashlinBody bp t l present)
    (hState : t.state = .grow) (hBit : t.bucketBit = l + 1) (hSplit : t.split < 2 ^ l)
    (hFuel : 2 ^ l - t.split ≤ fuel) (hMoves : 0 < t.split ∨ t.split + t.lowMax < splitTarget) :
    (∃ l', HashlinInv bp (growRounds splitTarget fuel t) l' present) ∧
      (Tommyds.growRounds splitTarget fuel t).bucketBit = t.bucketBit := by
  induction fuel generalizing t with
  | zero => omega
  | succ fuel ih =>
      rw [Tommyds.growRounds]
      split
      · have hNext := h.splitBucket hSplit
        have hNextSplit : (Tommyds.splitBucket t).split = t.split + 1 := rfl
        dsimp only
        split
        · rename_i hFull
          exact ⟨⟨l + 1, hNext.stable_up hBit (hFull.trans hNext.lowMax_eq)⟩, rfl⟩
        · rename_i hMore
          rw [hNext.lowMax_eq] at hMore
          exact ih hNext hState hBit (by omega) (by omega) (Or.inl (by omega))
      · rename_i hEnd
        exact ⟨⟨l, h, Or.inr ⟨by simp [hState], hBit, hMoves.resolve_right hEnd, hSplit⟩⟩, rfl⟩

/-- The shrink loop ends between two merges or in the stable state. -/
theorem shrinkRounds (splitTarget : Nat) {fuel : Nat} (h : HashlinBody bp t l present)
    (hState : t.state = .shrink) (hBit : t.bucketBit = l + 1) (hPos : 0 < t.split)
    (hSplit : t.split ≤ 2 ^ l) (hFuel : t.split ≤ fuel)
    (hMoves : t.split < 2 ^ l ∨ t.split + t.lowMax > splitTarget) :
    (∃ l', HashlinInv bp (shrinkRounds splitTarget fuel t) l' present) ∧
      (Tommyds.shrinkRounds splitTarget fuel t).bucketBit ≤ t.bucketBit := by
  induction fuel generalizing t with
  | zero => omega
  | succ fuel ih =>
      rw [Tommyds.shrinkRounds]
      split
      · have hNext := h.mergeBucket hPos hSplit
        have hNextSplit : (Tommyds.mergeBucket t).split = t.split - 1 := rfl
        dsimp only
        split
        · rename_i hNone
          exact ⟨⟨l, hNext.stable_down hBit hNone⟩, Nat.sub_le ..⟩
        · rename_i hMore
          exact ih hNext hState hBit (by omega) (by omega) (by omega) (Or.inl (by omega))
      · rename_i hEnd
        exact ⟨⟨l, h, Or.inr ⟨by simp [hState], hBit, hPos, hMoves.resolve_right hEnd⟩⟩,
          Nat.le_refl _⟩

end HashlinBody

namespace HashlinInv

variable {bp : Blueprint K V} {t : TommyHashlin K V} {l : Nat}
  {present : K → Bool}

theorem init :
    HashlinInv bp (tommyHashlinInit : TommyHashlin K V) tommyHashlinBit (fun _ => false) := by
  have hNil (i : Nat) (_ : i < 2 ^ tommyHashlinBit + 0) :
      (tommyHashlinInit : TommyHashlin K V).chainAt i = [] := rfl
  exact ⟨⟨Nat.le_refl _, fun i => Nat.zero_le i, rfl, rfl, rfl, rfl,
    Chained.empty hNil (linAddr_lt _ _), (congrArg Multiset.card (nodes_eq_zero hNil)).symm⟩,
    Or.inl ⟨rfl, rfl, rfl⟩⟩

theorem bucketRefPos_eq (h : HashlinInv bp t l present) : bucketRefPos t = linAddr l t.split := by
  funext hash
  refine h.toHashlinBody.bucketRefPos_eq ?_ hash
  rcases h.phase with ⟨_, _, hNone⟩ | ⟨_, hBit, _⟩
  · exact Or.inl hNone
  · exact Or.inr hBit

/-- Every node is chained in the bucket that the library selects for its hash. -/
theorem addressed (h : HashlinInv bp t l present) :
    Chained bp t.chainAt (2 ^ l + t.split) (bucketRefPos t) present := by
  rw [h.bucketRefPos_eq]
  exact h.chained

/-- Two tables of the same keys count the same elements. -/
theorem count_unique {t' : TommyHashlin K V} {l' : Nat} (h : HashlinInv bp t l present)
    (h' : HashlinInv bp t' l' present) : t.count = t'.count := by
  have hClasses := h.chained.holds.unique h'.chained.holds h.chained.nodup h'.chained.nodup
  have hCard := congrArg Multiset.card hClasses
  rw [classes, classes, Multiset.card_map, Multiset.card_map, ← h.count_eq, ← h'.count_eq] at hCard
  exact hCard

/-- A grow that is set up leaves the chains where they are. -/
theorem startGrow (garbage : Nat → Chain K V) (h : HashlinInv bp t l present)
    (hStable : t.state = .stable) :
    HashlinBody bp { startGrow garbage t with state := .grow } l present := by
  obtain ⟨hBit, hSplit⟩ : t.bucketBit = l ∧ t.split = 0 := by
    rcases h.phase with ⟨_, hPhase⟩ | ⟨hNot, _⟩
    · exact hPhase
    · exact absurd hStable hNot
  have hSame (i : Nat) (hi : i < 2 ^ l + 0) :
      (Tommyds.startGrow garbage t).chainAt i = t.chainAt i :=
    startGrow_chainAt garbage h.bucket_le
      (by have := h.bit_le; simp only [tommyHashlinBit] at this; omega) (by rw [hBit]; exact hi)
  have hChained := h.chained
  have hCount := h.count_eq
  rw [hSplit] at hChained hCount
  have hNodes := nodes_congr hSame
  refine ⟨h.bit_le, fun i => ?_, ?_, ?_, Nat.one_shiftLeft _, ?_, ?_, ?_⟩
  · by_cases hi : i = t.bucketBit
    · simp [Tommyds.startGrow, hi]
    · simpa [Tommyds.startGrow, Function.update_of_ne hi] using h.bucket_le i
  · exact h.max_eq.trans (by rw [hBit])
  · exact h.mask_eq.trans (by rw [hBit])
  · simp [Tommyds.startGrow, Nat.one_shiftLeft]
  · refine hChained.rehash hNodes (linAddr_lt l 0) fun i hi node hNode => ?_
    exact hChained.placed i hi node (hSame i hi ▸ hNode)
  · exact hCount.trans (congrArg Multiset.card hNodes.symm)

/-- A shrink that is set up regards every low bucket as split. -/
theorem startShrink (h : HashlinInv bp t l present) (hStable : t.state = .stable)
    (hBit : tommyHashlinBit < t.bucketBit) :
    ∃ m, t.bucketBit = m + 1 ∧ (startShrink t).split = 2 ^ m ∧
      HashlinBody bp { startShrink t with state := .shrink } m present := by
  obtain ⟨m, hm⟩ : ∃ m, t.bucketBit = m + 1 := ⟨t.bucketBit - 1, by omega⟩
  obtain ⟨hLevel, hSplit⟩ : l = m + 1 ∧ t.split = 0 := by
    rcases h.phase with ⟨_, hEq, hNone⟩ | ⟨hNot, _⟩
    · exact ⟨by omega, hNone⟩
    · exact absurd hStable hNot
  subst hLevel
  have hHalf : t.bucketMax / 2 = 2 ^ m := by
    rw [h.max_eq, hm, pow_succ]
    omega
  have hHalfMask : t.bucketMask / 2 = 2 ^ m - 1 := by
    rw [h.mask_eq, hm, pow_succ]
    omega
  have hSize : 2 ^ (m + 1) + 0 = 2 ^ m + 2 ^ m := by
    rw [pow_succ]
    omega
  have hChained := h.chained
  have hCount := h.count_eq
  rw [hSplit, hSize, ← linAddr_full] at hChained
  rw [hSplit, hSize] at hCount
  have hNext : (Tommyds.startShrink t).split = 2 ^ m := hHalf
  refine ⟨m, hm, hHalf, by omega, h.bucket_le, hHalf, hHalfMask, h.max_eq, h.mask_eq, ?_, ?_⟩
  · show Chained bp t.chainAt (2 ^ m + (Tommyds.startShrink t).split)
      (linAddr m (Tommyds.startShrink t).split) present
    rwa [hNext]
  · show t.count = (nodes t.chainAt (2 ^ m + (Tommyds.startShrink t).split)).card
    rwa [hNext]

theorem growStep (garbage : Nat → Chain K V) (h : HashlinInv bp t l present) :
    (∃ l', HashlinInv bp (hashlinGrowStep garbage t) l' present) ∧
      ((hashlinGrowStep garbage t).bucketBit ≤ t.bucketBit ∨
        (hashlinGrowStep garbage t).bucketBit = t.bucketBit + 1 ∧
          2 ^ t.bucketBit < 2 * t.count) := by
  unfold hashlinGrowStep
  by_cases hCross : t.state ≠ .grow ∧ t.count > t.bucketMax / 2
  · rw [if_pos hCross]
    have hMoves : t.bucketMax < 2 * t.count := by omega
    by_cases hStable : t.state = .stable
    · simp only [if_pos hStable, if_true]
      have hBody := h.startGrow garbage hStable
      obtain ⟨hBit, _⟩ : t.bucketBit = l ∧ t.split = 0 := by
        rcases h.phase with ⟨_, hPhase⟩ | ⟨hNot, _⟩
        · exact hPhase
        · exact absurd hStable hNot
      obtain ⟨hInv, hBits⟩ := hBody.growRounds (2 * t.count) rfl
        (congrArg (· + 1) hBit) (Nat.two_pow_pos _) (Nat.le_of_eq (by rw [← hBody.lowMax_eq]))
        (Or.inr (by simpa [Tommyds.startGrow] using hMoves))
      exact ⟨hInv, Or.inr ⟨hBits, h.max_eq ▸ hMoves⟩⟩
    · simp only [if_neg hStable, if_true]
      obtain ⟨_, hBit, hPos, hSplit⟩ := h.phase.resolve_left (fun hPhase => hStable hPhase.1)
      have hBody : HashlinBody bp { t with state := .grow } l present :=
        { h.toHashlinBody with }
      obtain ⟨hInv, hBits⟩ := hBody.growRounds (2 * t.count) rfl hBit hSplit
        (Nat.le_of_eq (by rw [← hBody.lowMax_eq])) (Or.inl hPos)
      exact ⟨hInv, Or.inl (Nat.le_of_eq hBits)⟩
  · rw [if_neg hCross]
    by_cases hGrow : t.state = .grow
    · obtain ⟨_, hBit, hPos, hSplit⟩ := h.phase.resolve_left (by simp [hGrow])
      obtain ⟨hInv, hBits⟩ := h.toHashlinBody.growRounds (2 * t.count) hGrow hBit
        hSplit (Nat.le_of_eq (by rw [← h.lowMax_eq])) (Or.inl hPos)
      simp only [if_pos hGrow]
      exact ⟨hInv, Or.inl (Nat.le_of_eq hBits)⟩
    · simp only [if_neg hGrow]
      exact ⟨⟨l, h⟩, Or.inl (Nat.le_refl _)⟩

theorem shrinkStep (h : HashlinInv bp t l present) :
    (∃ l', HashlinInv bp (hashlinShrinkStep t) l' present) ∧
      (hashlinShrinkStep t).bucketBit ≤ t.bucketBit := by
  unfold hashlinShrinkStep
  by_cases hCross : (t.state ≠ .shrink ∧ t.count < t.bucketMax / 8) ∧ t.bucketBit > tommyHashlinBit
  · rw [if_pos hCross.1, if_pos hCross.2]
    have hMoves : 8 * t.count < t.bucketMax := by omega
    by_cases hStable : t.state = .stable
    · simp only [if_pos hStable, if_true]
      obtain ⟨m, hBit, hSplit, hBody⟩ := h.startShrink hStable hCross.2
      refine hBody.shrinkRounds (8 * t.count) rfl hBit
        (hSplit ▸ Nat.two_pow_pos m) (Nat.le_of_eq hSplit) (Nat.le_refl _) (Or.inr ?_)
      have hMax := h.max_eq
      rw [hBit, pow_succ] at hMax
      rw [hBody.lowMax_eq]
      show 8 * t.count < (Tommyds.startShrink t).split + 2 ^ m
      omega
    · simp only [if_neg hStable, if_true]
      obtain ⟨_, hBit, hPos, hSplit⟩ := h.phase.resolve_left (fun hPhase => hStable hPhase.1)
      have hBody : HashlinBody bp { t with state := .shrink } l present :=
        { h.toHashlinBody with }
      exact hBody.shrinkRounds (8 * t.count) rfl hBit hPos (Nat.le_of_lt hSplit)
        (Nat.le_refl _) (Or.inl hSplit)
  · have hSame : (if t.state ≠ .shrink ∧ t.count < t.bucketMax / 8 then
        if t.bucketBit > tommyHashlinBit then
          { (if t.state = .stable then Tommyds.startShrink t else t) with state := .shrink }
        else t
      else t) = t := by
      by_cases hCount : t.state ≠ .shrink ∧ t.count < t.bucketMax / 8
      · rw [if_pos hCount, if_neg (fun hBit => hCross ⟨hCount, hBit⟩)]
      · rw [if_neg hCount]
    simp only [hSame]
    by_cases hShrink : t.state = .shrink
    · obtain ⟨_, hBit, hPos, hSplit⟩ := h.phase.resolve_left (by simp [hShrink])
      simp only [if_pos hShrink]
      exact h.toHashlinBody.shrinkRounds (8 * t.count) hShrink hBit hPos
        (Nat.le_of_lt hSplit) (Nat.le_refl _) (Or.inl hSplit)
    · simp only [if_neg hShrink]
      exact ⟨⟨l, h⟩, Nat.le_refl _⟩

/-- Rewriting one chain and the count, for new present keys. -/
theorem setChain {present' : K → Bool} (h : HashlinInv bp t l present) {hash : Nat} (count : Nat)
    {chain : Chain K V}
    (hChained : Chained bp (Function.update t.chainAt (bucketRefPos t hash) chain)
      (2 ^ l + t.split) (bucketRefPos t) present')
    (hCount : count + (t.chainAt (bucketRefPos t hash)).length = t.count + chain.length) :
    HashlinInv bp { t.setChain (bucketRefPos t hash) chain with count := count } l present' := by
  have hSet := t.chainAt_setChain (bucketRefPos t hash) chain
  have hCard := card_nodes_update t.chainAt (h.addressed.addr_lt hash) chain
  refine ⟨⟨h.bit_le, h.bucket_le, h.lowMax_eq, h.lowMask_eq, h.max_eq, h.mask_eq, ?_, ?_⟩, h.phase⟩
  · exact hSet ▸ h.bucketRefPos_eq ▸ hChained
  · have hCountEq := h.count_eq
    show count = (nodes (t.setChain (bucketRefPos t hash) chain).chainAt (2 ^ l + t.split)).card
    rw [hSet]
    omega

theorem insert (garbage : Nat → Chain K V) (h : HashlinInv bp t l present) (key : K) :
    (∃ l', HashlinInv bp (TommydsLin.insert garbage bp t key) l'
        (bp.apply present (.insert key))) ∧
      ((TommydsLin.insert garbage bp t key).bucketBit ≤ t.bucketBit ∨
        (TommydsLin.insert garbage bp t key).bucketBit = t.bucketBit + 1 ∧
          2 ^ t.bucketBit < 2 * (TommydsLin.insert garbage bp t key).count) := by
  have hBucket : tommyHashlinBucket t (hashOf bp key) =
      t.chainAt (bucketRefPos t (hashOf bp key)) := rfl
  rcases h.addressed.walk key with
    ⟨before, node, after, hSplit, _, hKey, _, _, hUpdate, _⟩ | ⟨_, hAbsent, _, hUpdate, _⟩
  · simp only [TommydsLin.insert, hBucket, hUpdate]
    refine ⟨⟨l, h.setChain t.count (h.addressed.update hSplit hKey) ?_⟩,
      Or.inl (Nat.le_refl _)⟩
    rw [hSplit]
    simp
  · simp only [TommydsLin.insert, hBucket, hUpdate, tommyHashlinInsert, tommyListInsertTail_eq]
    have hAppend := h.setChain (t.count + 1)
      (h.addressed.append bp.valueType hAbsent)
      (by rw [List.length_append, List.length_singleton]; omega)
    obtain ⟨⟨l', hGrown⟩, hBits⟩ := hAppend.growStep garbage
    refine ⟨⟨l', hGrown⟩, hBits.imp_right fun hUp => ⟨hUp.1, ?_⟩⟩
    exact hAppend.count_unique hGrown ▸ hUp.2

theorem erase (h : HashlinInv bp t l present) (key : K) :
    (∃ l', HashlinInv bp (TommydsLin.erase bp t key) l' (bp.apply present (.erase key))) ∧
      (TommydsLin.erase bp t key).bucketBit ≤ t.bucketBit := by
  have hBucket : tommyHashlinBucket t (hashOf bp key) =
      t.chainAt (bucketRefPos t (hashOf bp key)) := rfl
  rcases h.addressed.walk key with
    ⟨before, node, after, hSplit, _, hKey, _, _, _, hRemove⟩ | ⟨_, hAbsent, _, _, hRemove⟩
  · simp only [TommydsLin.erase, tommyHashlinRemove, hBucket, hRemove]
    have hMem : node ∈ nodes t.chainAt (2 ^ l + t.split) :=
      mem_nodes.mpr ⟨_, h.addressed.addr_lt _, by rw [hSplit]; simp⟩
    have hPos := Multiset.card_pos_iff_exists_mem.mpr ⟨node, hMem⟩
    rw [← h.count_eq] at hPos
    refine (h.setChain _ (h.addressed.unlink hSplit hKey) ?_).shrinkStep
    rw [hSplit]
    simp only [List.length_append, List.length_cons]
    omega
  · simp only [TommydsLin.erase, tommyHashlinRemove, hBucket, hRemove]
    exact ⟨⟨l, { h with chained := h.chained.skip hAbsent }⟩, Nat.le_refl _⟩

/-- Every run keeps the invariant, whatever new memory contains. -/
theorem run (garbage : Nat → Chain K V) (bp : Blueprint K V) (ops : List (Op K)) :
    ∃ l, HashlinInv bp (TommydsLin.run garbage bp ops) l (bp.present ops) := by
  induction ops using List.reverseRecOn with
  | nil => exact ⟨_, init⟩
  | append_singleton ops op ih =>
      obtain ⟨l, hInv⟩ := ih
      rw [bp.present_concat, TommydsLin.run, List.foldl_append, List.foldl_cons, List.foldl_nil]
      cases op with
      | insert key => exact (hInv.insert garbage key).1
      | erase key => exact (hInv.erase key).1

/-- With fewer than `2 ^ 30` keys in every state on the way the bucket vector
stays below `2 ^ 32` cells, so that no size or target overflows its type. -/
theorem run_bucketBit_le (garbage : Nat → Chain K V) (bp : Blueprint K V) (ops : List (Op K))
    (hCount : ∀ prior, prior <+: ops → (TommydsLin.run garbage bp prior).count < 2 ^ 30) :
    (TommydsLin.run garbage bp ops).bucketBit ≤ 31 := by
  induction ops using List.reverseRecOn with
  | nil => exact (by decide : tommyHashlinBit ≤ 31)
  | append_singleton ops op ih =>
      have hBits := ih fun prior hPrior => hCount prior (hPrior.trans (List.prefix_append ops [op]))
      have hNow := hCount _ (List.prefix_refl _)
      obtain ⟨l, hInv⟩ := run garbage bp ops
      rw [TommydsLin.run, List.foldl_append, List.foldl_cons, List.foldl_nil] at hNow ⊢
      cases op with
      | insert key =>
          rcases (hInv.insert garbage key).2 with hSame | ⟨hUp, hLess⟩
          · exact hSame.trans hBits
          · have hPow : 2 ^ (TommydsLin.run garbage bp ops).bucketBit < 2 ^ 31 :=
              hLess.trans (by simp only [TommydsLin.call, TommydsLin.run] at hNow ⊢; omega)
            have hLt := (Nat.pow_lt_pow_iff_right (by decide)).mp hPow
            exact hUp.trans_le hLt
      | erase key => exact (hInv.erase key).2.trans hBits

/-- The shim's own addressing is the library's and selects an active bucket. -/
theorem findBucketIdx_spec (h : HashlinInv bp t l present) (hash : Nat) :
    tommyHashlinPos t (TommydsLin.findBucketIdx t hash) = tommyHashlinBucketRef t hash ∧
      TommydsLin.findBucketIdx t hash < TommydsLin.activeBucketCount t := by
  refine ⟨rfl, ?_⟩
  rw [TommydsLin.activeBucketCount, h.lowMax_eq]
  exact h.addressed.addr_lt hash

/-- Iteration from a found key resumes the full scan; an absent key is not found. -/
theorem find_spec (h : HashlinInv bp t l present) (key : K) :
    (present key = true ∧
        Resumes Iterator.isItrValid TommydsLin.incrementItr Iterator.getKeyFromItr
          (TommydsLin.beginItr t) (TommydsLin.find bp t key) (ReadsKey bp key)) ∨
      (present key = false ∧ (TommydsLin.find bp t key).isItrValid = false) := by
  have hIdx : TommydsLin.findBucketIdx t (hashOf bp key) = bucketRefPos t (hashOf bp key) := rfl
  rcases h.addressed.walk key with
    ⟨before, node, after, hSplit, _, hKey, hPresent, hFind, _⟩ | ⟨hAbsent, _, hFind, _⟩
  · refine Or.inl ⟨hPresent, ?_⟩
    simp only [TommydsLin.find, hIdx, hFind]
    exact Iterator.resumes (h.findBucketIdx_spec (hashOf bp key)).2 hSplit hKey
  · refine Or.inr ⟨hAbsent, ?_⟩
    simp only [TommydsLin.find, hIdx, hFind]
    rfl

end HashlinInv

/-- In every state of every run, in the midst of a reallocation or not, the
shim finds exactly the present keys in the bucket the library selects, stores
no key twice, scans each present key once, and resumes the scan from a find. -/
theorem tommydsLin_refines (garbage : Nat → Chain K V) (bp : Blueprint K V) (ops : List (Op K)) :
    let table := TommydsLin.run garbage bp ops
    (∀ key, (TommydsLin.find bp table key).isItrValid = bp.present ops key) ∧
      (∀ hash,
        tommyHashlinPos table (TommydsLin.findBucketIdx table hash) =
            tommyHashlinBucketRef table hash ∧
          TommydsLin.findBucketIdx table hash < table.lowMax + table.split) ∧
      (classes bp table.chainAt (table.lowMax + table.split)).Nodup ∧
      (∃ order, bp.Enumerates order (bp.present ops) ∧
        Visits Iterator.isItrValid TommydsLin.incrementItr Iterator.getKeyFromItr
          (TommydsLin.beginItr table) (order.map some)) ∧
      ∀ key, bp.present ops key = true →
        Resumes Iterator.isItrValid TommydsLin.incrementItr Iterator.getKeyFromItr
          (TommydsLin.beginItr table) (TommydsLin.find bp table key) (ReadsKey bp key) := by
  intro table
  obtain ⟨l, hInv⟩ := HashlinInv.run garbage bp ops
  have hActive : 2 ^ l + table.split = table.lowMax + table.split :=
    congrArg (· + table.split) hInv.lowMax_eq.symm
  refine ⟨fun key => ?_, hInv.findBucketIdx_spec, hActive ▸ hInv.chained.nodup,
    ⟨_, hInv.chained.enumerates, ?_⟩, fun key hPresent => ?_⟩
  · rcases hInv.find_spec key with ⟨hPresent, hResumes⟩ | ⟨hAbsent, hNone⟩
    · rw [hPresent, hResumes.1]
    · rw [hAbsent, hNone]
  · rw [← keysRead_eq, hActive]
    exact Iterator.visits_begin table
  · rcases hInv.find_spec key with ⟨_, hResumes⟩ | ⟨hAbsent, _⟩
    · exact hResumes
    · simp [hPresent] at hAbsent

end HashBench.Tommyds
