import HashBench.Tommyds.Hashdyn
import HashBench.Library.RoundUp

/-! The `tommyds_hash` shim over `tommy_hashtable`, whose bucket vector has the
size it is created with. It and the `tommyds_dyn` shim are one finite map. -/
namespace HashBench.Tommyds

open Iteration RoundUp

variable {K V : Type*}

structure TommyHashtable (K V : Type*) where
  bucket : Nat → Chain K V
  bucketMax : Nat
  bucketMask : Nat
  count : Nat

/-- `tommy_roundup_pow2` on a `tommy_size_t`. -/
def tommyRoundupPow2 (value : Nat) : Nat :=
  let value := (value + (2 ^ sizeBit - 1)) % 2 ^ sizeBit
  let value := smear 32 (smear 16 (smear 8 (smear 4 (smear 2 (smear 1 value)))))
  (value + 1) % 2 ^ sizeBit

def tommyHashtableInit (bucketMax : Nat) : TommyHashtable K V :=
  let bucketMax := if bucketMax < 16 then 16 else tommyRoundupPow2 bucketMax
  { bucketMax
    bucketMask := bucketMax - 1
    bucket := fun _ => []
    count := 0 }

section Model

variable (bp : Blueprint K V)

def tommyHashtableInsert (t : TommyHashtable K V) (data : Entry K V) (hash : Nat) :
    TommyHashtable K V :=
  let pos := hash &&& t.bucketMask
  { t with
    bucket := Function.update t.bucket pos (tommyListInsertTail (t.bucket pos) ⟨hash, data⟩)
    count := t.count + 1 }

/-- `tommy_hashtable_remove`; a table without a match is left alone. -/
def tommyHashtableRemove (t : TommyHashtable K V) (key : K) (hash : Nat) : TommyHashtable K V :=
  let pos := hash &&& t.bucketMask
  match chainRemove bp key (t.bucket pos) with
  | some chain => { t with bucket := Function.update t.bucket pos chain, count := t.count - 1 }
  | none => t

def tommyHashtableBucket (t : TommyHashtable K V) (hash : Nat) : Chain K V :=
  t.bucket (hash &&& t.bucketMask)

namespace TommydsHash

/-- `create_table`, which reads the global `KEY_COUNT`. -/
def createTable (keyCount : Nat) : TommyHashtable K V := tommyHashtableInit keyCount

def insert (table : TommyHashtable K V) (key : K) : TommyHashtable K V :=
  let hash := hashOf bp key
  match chainUpdate bp key (tommyHashtableBucket table hash) with
  | some chain =>
      { table with bucket := Function.update table.bucket (hash &&& table.bucketMask) chain }
  | none => tommyHashtableInsert table ⟨key, bp.valueType⟩ hash

def erase (table : TommyHashtable K V) (key : K) : TommyHashtable K V :=
  tommyHashtableRemove bp table key (hashOf bp key)

/-- `Iterator::advance` over all `bucket_max` buckets. -/
def incrementItr : Iterator (TommyHashtable K V) K V → Iterator (TommyHashtable K V) K V :=
  Iterator.advance TommyHashtable.bucketMax TommyHashtable.bucket

def find (table : TommyHashtable K V) (key : K) : Iterator (TommyHashtable K V) K V :=
  let bucketIdx := hashOf bp key &&& table.bucketMask
  match chainFind bp key (table.bucket bucketIdx) with
  | [] => Iterator.new none
  | node => { tablePtr := some table, bucketIdx := bucketIdx + 1, nodePtr := node }

def beginItr (table : TommyHashtable K V) : Iterator (TommyHashtable K V) K V :=
  incrementItr (Iterator.new (some table))

def call (table : TommyHashtable K V) : Op K → TommyHashtable K V
  | .insert key => insert bp table key
  | .erase key => erase bp table key

/-- The table after these calls on a fresh one. -/
def run (keyCount : Nat) (ops : List (Op K)) : TommyHashtable K V :=
  ops.foldl (call bp) (createTable keyCount)

end TommydsHash

end Model

theorem tommyRoundupPow2_eq {value : Nat} (hPos : 0 < value) (hLe : value ≤ 2 ^ 63) :
    tommyRoundupPow2 value = 2 ^ (value - 1).size := by
  have hPred : (value + (2 ^ sizeBit - 1)) % 2 ^ sizeBit = value - 1 := by
    unfold sizeBit
    omega
  have hSpread : Spread 64 (value - 1)
      (smear 32 (smear 16 (smear 8 (smear 4 (smear 2 (smear 1 (value - 1))))))) :=
    (spread_one (value - 1)).smear.smear.smear.smear.smear.smear
  have hSize : (value - 1).size ≤ 63 := by
    rw [Nat.size_le]
    omega
  have hPow : 2 ^ (value - 1).size ≤ 2 ^ 63 := Nat.pow_le_pow_right Nat.zero_lt_two hSize
  rw [tommyRoundupPow2, hPred, hSpread.eq (by omega)]
  exact Nat.mod_eq_of_lt (by unfold sizeBit; omega)

/-- The invariant of a table that stores exactly the present keys. -/
structure HashtblInv (bp : Blueprint K V) (t : TommyHashtable K V) (present : K → Bool) :
    Prop where
  size : ∃ k, t.bucketMax = 2 ^ k ∧ t.bucketMask = 2 ^ k - 1
  chained : Chained bp t.bucket t.bucketMax (· % t.bucketMax) present

namespace HashtblInv

variable {bp : Blueprint K V} {t : TommyHashtable K V} {present : K → Bool}

theorem init {keyCount : Nat} (hLe : keyCount ≤ 2 ^ 63) :
    HashtblInv bp (tommyHashtableInit keyCount : TommyHashtable K V) fun _ => false := by
  have hSize : ∃ k, (tommyHashtableInit keyCount : TommyHashtable K V).bucketMax = 2 ^ k := by
    unfold tommyHashtableInit
    by_cases hSmall : keyCount < 16
    · exact ⟨4, if_pos hSmall⟩
    · exact ⟨_, (if_neg hSmall).trans (tommyRoundupPow2_eq (by omega) hLe)⟩
  obtain ⟨k, hk⟩ := hSize
  refine ⟨⟨k, hk, congrArg (· - 1) hk⟩, Chained.empty (fun _ _ => rfl) fun hash => ?_⟩
  rw [hk]
  exact Nat.mod_lt _ (Nat.two_pow_pos k)

theorem and_mask (h : HashtblInv bp t present) (hash : Nat) :
    hash &&& t.bucketMask = hash % t.bucketMax := by
  obtain ⟨k, hMax, hMask⟩ := h.size
  rw [hMax, hMask, Nat.and_two_pow_sub_one_eq_mod]

theorem insert (h : HashtblInv bp t present) (key : K) :
    HashtblInv bp (TommydsHash.insert bp t key) (bp.apply present (.insert key)) := by
  rcases h.chained.walk key with
    ⟨before, node, after, hSplit, _, hKey, _, _, hUpdate, _⟩ | ⟨_, hAbsent, _, hUpdate, _⟩
  · simp only [TommydsHash.insert, tommyHashtableBucket, h.and_mask, hUpdate]
    exact ⟨h.size, h.chained.update hSplit hKey⟩
  · simp only [TommydsHash.insert, tommyHashtableBucket, tommyHashtableInsert, h.and_mask, hUpdate,
      tommyListInsertTail_eq]
    exact ⟨h.size, h.chained.append _ hAbsent⟩

theorem erase (h : HashtblInv bp t present) (key : K) :
    HashtblInv bp (TommydsHash.erase bp t key) (bp.apply present (.erase key)) := by
  rcases h.chained.walk key with
    ⟨before, node, after, hSplit, _, hKey, _, _, _, hRemove⟩ | ⟨_, hAbsent, _, _, hRemove⟩
  · simp only [TommydsHash.erase, tommyHashtableRemove, h.and_mask, hRemove]
    exact ⟨h.size, h.chained.unlink hSplit hKey⟩
  · simp only [TommydsHash.erase, tommyHashtableRemove, h.and_mask, hRemove]
    exact ⟨h.size, h.chained.skip hAbsent⟩

theorem run (bp : Blueprint K V) {keyCount : Nat} (hLe : keyCount ≤ 2 ^ 63) (ops : List (Op K)) :
    HashtblInv bp (TommydsHash.run bp keyCount ops) (bp.present ops) := by
  induction ops using List.reverseRecOn with
  | nil => exact init hLe
  | append_singleton ops op ih =>
      rw [bp.present_concat, TommydsHash.run, List.foldl_append, List.foldl_cons, List.foldl_nil]
      cases op with
      | insert key => exact ih.insert key
      | erase key => exact ih.erase key

/-- The node that the search returns. -/
theorem find_nodePtr (h : HashtblInv bp t present) (key : K) :
    (TommydsHash.find bp t key).nodePtr =
      chainFind bp key (t.bucket (hashOf bp key % t.bucketMax)) := by
  simp only [TommydsHash.find, h.and_mask]
  split
  · rename_i hNil
    exact hNil.symm
  · rfl

/-- From a found node the walk goes on with the rest of its chain and then with
the later buckets. -/
theorem find_resumes (h : HashtblInv bp t present) {key : K} (hKey : present key = true) :
    Resumes Iterator.isItrValid TommydsHash.incrementItr Iterator.getKeyFromItr
      (TommydsHash.beginItr t) (TommydsHash.find bp t key) (ReadsKey bp key) := by
  rcases h.chained.walk key with
    ⟨before, node, after, hSplit, _, hMatch, _, hFind, _⟩ | ⟨hAbsent, _⟩
  · simp only [TommydsHash.find, h.and_mask, hFind]
    exact Iterator.resumes (h.chained.addr_lt _) hSplit hMatch
  · rw [hKey] at hAbsent
    cases hAbsent

end HashtblInv

/-- The node that the search of `tommyds_dyn` returns. -/
theorem HashdynInv.find_nodePtr {bp : Blueprint K V} {t : TommyHashdyn K V} {present : K → Bool}
    (h : HashdynInv bp t present) (key : K) : (TommydsDyn.find bp t key).nodePtr =
      chainFind bp key (t.bucket (hashOf bp key % 2 ^ t.bucketBit)) := by
  simp only [TommydsDyn.find, tommyHashdynBucket, h.and_mask]
  split
  · rename_i hNil
    exact hNil.symm
  · rfl

/-- The buckets store each present key once, the search is valid for the present
keys, at one that compares equal, and the scan reads what is stored. -/
structure FiniteMap {T : Type*} (bp : Blueprint K V) (bucket : Nat → Chain K V) (n : Nat)
    (find : K → Iterator T K V) (next : Iterator T K V → Iterator T K V) (first : Iterator T K V)
    (present : K → Bool) : Prop where
  stored : bp.Enumerates ((scanFrom bucket n 0).map fun node => node.data.keyK) present
  find_valid : ∀ key, (find key).isItrValid = present key
  find_key : ∀ key, present key = true → ReadsKey bp key (find key).getKeyFromItr
  scan : Visits Iterator.isItrValid next Iterator.getKeyFromItr first
    (((scanFrom bucket n 0).map fun node => node.data.keyK).map some)

/-- Chained tables whose search walks the chain of the key are finite maps. -/
theorem Chained.finiteMap {T : Type*} {bp : Blueprint K V} {bucket : Nat → Chain K V} {n : Nat}
    {addr : Nat → Nat} {present : K → Bool} {find : K → Iterator T K V}
    {next : Iterator T K V → Iterator T K V} {first : Iterator T K V}
    (h : Chained bp bucket n addr present)
    (hFind : ∀ key, (find key).nodePtr = chainFind bp key (bucket (addr (hashOf bp key))))
    (hScan : Visits Iterator.isItrValid next Iterator.getKeyFromItr first
      (keysRead (scanFrom bucket n 0))) : FiniteMap bp bucket n find next first present := by
  refine ⟨h.enumerates, fun key => ?_, fun key hKey => ?_, keysRead_eq (scanFrom bucket n 0) ▸ hScan⟩
  · rw [Iterator.isItrValid, hFind]
    rcases h.walk key with ⟨_, _, _, _, _, _, hPresent, hFound, _⟩ | ⟨hAbsent, _, hNone, _⟩
    · rw [hFound, hPresent]
      rfl
    · rw [hNone, hAbsent]
      rfl
  · rcases h.walk key with ⟨_, node, _, _, _, hMatch, _, hFound, _⟩ | ⟨hAbsent, _⟩
    · exact ⟨node.data.keyK, by rw [Iterator.getKeyFromItr, hFind, hFound]; rfl, hMatch⟩
    · rw [hKey] at hAbsent
      cases hAbsent

/-- What the two shims have in common after the same calls. In `tommyds_hash` a
walk from a found key also goes on as the scan does. -/
structure Agree (bp : Blueprint K V) (dyn : TommyHashdyn K V) (tbl : TommyHashtable K V)
    (present : K → Bool) : Prop where
  dyn_map : FiniteMap bp dyn.bucket dyn.bucketMax (TommydsDyn.find bp dyn) TommydsDyn.incrementItr
    (TommydsDyn.beginItr dyn) present
  tbl_map : FiniteMap bp tbl.bucket tbl.bucketMax (TommydsHash.find bp tbl) TommydsHash.incrementItr
    (TommydsHash.beginItr tbl) present
  same : ∀ key, (TommydsDyn.find bp dyn key).isItrValid = (TommydsHash.find bp tbl key).isItrValid
  resumes : ∀ key, present key = true →
    Resumes Iterator.isItrValid TommydsHash.incrementItr Iterator.getKeyFromItr
      (TommydsHash.beginItr tbl) (TommydsHash.find bp tbl key) (ReadsKey bp key)

/-- After the same calls both shims are the finite map of these calls. -/
theorem tommyds_agree (garbage : Nat → Chain K V) (bp : Blueprint K V) {keyCount : Nat}
    (hLe : keyCount ≤ 2 ^ 63) (ops : List (Op K)) :
    Agree bp (TommydsDyn.run garbage bp ops) (TommydsHash.run bp keyCount ops) (bp.present ops) := by
  have hDyn := HashdynInv.run garbage bp ops
  have hTbl := HashtblInv.run bp hLe ops
  have hChained := hDyn.chained
  have hFind := hDyn.find_nodePtr
  rw [← hDyn.max_eq] at hChained hFind
  have hDynMap := hChained.finiteMap hFind (Iterator.visits_begin (TommydsDyn.run garbage bp ops))
  have hTblMap := hTbl.chained.finiteMap hTbl.find_nodePtr
    (Iterator.visits_begin (TommydsHash.run bp keyCount ops))
  exact ⟨hDynMap, hTblMap, fun key => (hDynMap.find_valid key).trans (hTblMap.find_valid key).symm,
    fun key hKey => hTbl.find_resumes hKey⟩

/-- Two keys of one bucket, and the size of the benchmark's default settings. -/
theorem tommyds_agree_collision :
    Agree (Blueprint.ofEq (fun k : Nat => k % 4) ())
      (TommydsDyn.run (fun _ => []) (Blueprint.ofEq (fun k => k % 4) ())
        [.insert 3, .insert 7, .erase 3])
      (TommydsHash.run (Blueprint.ofEq (fun k => k % 4) ()) 200000 [.insert 3, .insert 7, .erase 3])
      ((Blueprint.ofEq (fun k : Nat => k % 4) ()).present [.insert 3, .insert 7, .erase 3]) :=
  tommyds_agree _ _ (by decide) _

end HashBench.Tommyds
