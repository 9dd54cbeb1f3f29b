import HashBench.Library.Chains
import HashBench.Library.Search
import HashBench.Blueprint
import Mathlib.Data.Rat.Floor

/-! The table of Verstable and the Verstable shim: quadratic probing in which the
keys of one home bucket are linked into a chain. -/
namespace HashBench.Verstable

open Search Chains

/-- A hash fragment of four bits, the flag of a key in its home bucket, and the
displacement of the next key of its chain in eleven bits: `XXXXYZZZZZZZZZZZ`. -/
abbrev Metadatum := BitVec 16

def vtEmpty : Metadatum := 0x0000#16
def vtHashFragMask : Metadatum := 0xF000#16
def vtInHomeBucketMask : Metadatum := 0x0800#16
def vtDisplacementMask : Metadatum := 0x07FF#16

def vtHashfrag (hash : BitVec 64) : Metadatum := (hash >>> 48).setWidth 16 &&& vtHashFragMask

def vtQuadratic (displacement : Nat) : Nat := (displacement * displacement + displacement) / 2

def vtMinNonzeroBucketCount : Nat := 8

/-- `metadatum & VT_DISPLACEMENT_MASK` as a number. -/
def displacementOf (metadatum : Metadatum) : Nat := (metadatum &&& vtDisplacementMask).toNat

/-- Whether an allocation of this many bytes succeeds. The sizes that one call asks
for all differ, and no object is larger than `PTRDIFF_MAX`. -/
structure Allocator where
  malloc : Nat → Bool
  max : ∀ size, malloc size = true → size < 2 ^ 63

/-- `bucket_count * 2` on a `size_t`. -/
def doubled (bucketCount : Nat) : Nat := bucketCount * 2 % 2 ^ 64

/-- The offset of the metadata behind the buckets, on a `size_t`. -/
def metadataOffset (bucketSize bucketCount : Nat) : Nat :=
  (bucketCount * bucketSize + 2 - 1) % 2 ^ 64 / 2 * 2

def totalAllocSize (bucketSize bucketCount : Nat) : Nat :=
  (metadataOffset bucketSize bucketCount + (bucketCount + 4) * 2) % 2 ^ 64

/-- The bytes of an array, whether or not a `size_t` counts them. -/
def arraySize (bucketSize bucketCount : Nat) : Nat :=
  (bucketCount * bucketSize + 2 - 1) / 2 * 2 + (bucketCount + 4) * 2

structure Table (K V : Type) where
  keyCount : Nat
  bucketsMask : Nat
  buckets : Nat → K × V
  metadata : Nat → Metadatum

/-- Pointers are indices into the arrays of the table, and `none` is `SIZE_MAX`. -/
structure Itr where
  data : Nat
  metadatum : Nat
  metadataEnd : Nat
  homeBucket : Option Nat
  deriving DecidableEq, Repr

def isEnd (itr : Itr) : Bool := itr.metadatum == itr.metadataEnd

/-- All pointers are `NULL`. -/
def endItr : Itr := ⟨0, 0, 0, some 0⟩

section Model

variable {K V : Type} (maxLoad : ℚ) (bucketSize : Nat) (memory : Nat → K × V)
  (allocator : Allocator) (bp : Blueprint K V)

/-- The metadata are those of the placeholder. -/
def init : Table K V where
  keyCount := 0
  bucketsMask := 0
  buckets := memory
  metadata _ := vtEmpty

def hashFn (key : K) : BitVec 64 := BitVec.ofNat 64 (bp.hashKey key)

namespace Table

variable (table : Table K V)

def bucketCount : Nat := table.bucketsMask + if table.bucketsMask ≠ 0 then 1 else 0

def homeBucket (key : K) : Nat := (hashFn bp key).toNat &&& table.bucketsMask

/-- The bucket at a quadratic displacement from a home bucket. -/
def bucketAt (home displacement : Nat) : Nat :=
  (home + vtQuadratic displacement) &&& table.bucketsMask

/-- The displacement of the next key in the chain. -/
def link (bucket : Nat) : Nat := displacementOf (table.metadata bucket)

def inHome (bucket : Nat) : Bool := table.metadata bucket &&& vtInHomeBucketMask != 0#16

def isLast (bucket : Nat) : Bool :=
  table.metadata bucket &&& vtDisplacementMask == vtDisplacementMask

/-- The buckets of a chain, from one of them on. -/
def chain (home start : Nat) : Nat → Nat := walk table.bucketAt table.link home start

/-- `key_count + 1 > bucket_count * MAX_LOAD`. -/
def Overloaded : Prop := (table.bucketCount : ℚ) * maxLoad < (table.keyCount + 1 : Nat)

instance : Decidable (table.Overloaded maxLoad) := inferInstanceAs (Decidable (_ < _))

/-- An iterator to a bucket. -/
def itrAt (bucket : Nat) (home : Option Nat) : Itr := ⟨bucket, bucket, table.bucketsMask + 1, home⟩

end Table

/-- The rounds of `_find_first_empty` that are left before the limit. -/
def findFirstEmptyFrom (table : Table K V) (home : Nat) : Nat → Nat → Nat → Option (Nat × Nat)
  | 0, _, _ => none
  | left + 1, displacement, linearDisplacement =>
      let empty := (home + linearDisplacement) &&& table.bucketsMask
      if table.metadata empty = vtEmpty then some (empty, displacement)
      else if displacement + 1 = vtDisplacementMask.toNat then none
      else
        findFirstEmptyFrom table home left (displacement + 1)
          (linearDisplacement + (displacement + 1))

/-- The earliest empty bucket for a key of an occupied home bucket, and its displacement. -/
def findFirstEmpty (table : Table K V) (home : Nat) : Option (Nat × Nat) :=
  findFirstEmptyFrom table home (vtDisplacementMask.toNat - 1) 1 1

/-- The bucket of a chain after which to link a bucket at this displacement. -/
def findInsertLocationInChain (fuel : Nat) (table : Table K V) (home displacementToEmpty : Nat) :
    Option Nat :=
  let seq := table.chain home home
  (search (fun candidate => decide (displacementToEmpty < table.link candidate))
    (fun _ acc => acc) seq fuel 0 ()).map fun (j, _) => seq j

/-- The bucket of a chain that links to `bucket`. -/
def findPrevious (fuel : Nat) (table : Table K V) (home bucket : Nat) : Option Nat :=
  let seq := table.chain home home
  (search (fun prev => decide (table.bucketAt home (table.link prev) = bucket))
    (fun _ acc => acc) seq fuel 0 ()).map fun (j, _) => seq j

/-- Writes a pair to an empty bucket, and links the bucket after `prev`. -/
def linkAfter (table : Table K V) (prev empty displacement : Nat) (hashfrag : Metadatum)
    (pair : K × V) : Table K V :=
  let buckets := Function.update table.buckets empty pair
  let metadata := Function.update table.metadata empty
    (hashfrag ||| (table.metadata prev &&& vtDisplacementMask))
  let metadata := Function.update metadata prev
    ((metadata prev &&& ~~~vtDisplacementMask) ||| BitVec.ofNat 16 displacement)
  { table with buckets, metadata }

/-- The first half of `_evict`: the key of `bucket` leaves its chain. -/
def disconnect (fuel : Nat) (table : Table K V) (home bucket : Nat) : Option (Table K V) := do
  let prev ← findPrevious fuel table home bucket
  return { table with
    metadata := Function.update table.metadata prev
      ((table.metadata prev &&& ~~~vtDisplacementMask) |||
        (table.metadata bucket &&& vtDisplacementMask)) }

/-- The second half of `_evict`: the key of `bucket` joins its chain elsewhere. -/
def reconnect (fuel : Nat) (table : Table K V) (home bucket : Nat) :
    Option (Bool × Table K V) :=
  match findFirstEmpty table home with
  | none => some (false, table)
  | some (empty, displacement) => do
      let prev ← findInsertLocationInChain fuel table home displacement
      return (true, linkAfter table prev empty displacement
        (table.metadata bucket &&& vtHashFragMask) (table.buckets bucket))

/-- Whether the key of `bucket` was moved, and the table. -/
def evict (fuel : Nat) (table : Table K V) (bucket : Nat) : Option (Bool × Table K V) := do
  let home := table.homeBucket bp (table.buckets bucket).1
  let table ← disconnect fuel table home bucket
  reconnect fuel table home bucket

/-- Vacates a home bucket if it contains a key. -/
def vacate (fuel : Nat) (table : Table K V) (home : Nat) : Option (Bool × Table K V) :=
  if table.metadata home ≠ vtEmpty then evict bp fuel table home else some (true, table)

/-- Writes a pair to its vacant home bucket. -/
def beginChain (table : Table K V) (home : Nat) (hashfrag : Metadatum) (pair : K × V) :
    Table K V :=
  { table with
    keyCount := table.keyCount + 1
    buckets := Function.update table.buckets home pair
    metadata := Function.update table.metadata home
      (hashfrag ||| vtInHomeBucketMask ||| vtDisplacementMask) }

/-- Whether the key of a bucket matches. -/
def hit (table : Table K V) (key : K) (bucket : Nat) : Bool :=
  (table.metadata bucket &&& vtHashFragMask == vtHashfrag (hashFn bp key)) &&
    bp.cmprKeys (table.buckets bucket).1 key

/-- The bucket of a matching key in a chain. -/
def searchChain (fuel : Nat) (table : Table K V) (home : Nat) (key : K) : Option (Option Nat) :=
  let seq := table.chain home home
  (search (fun bucket => hit bp table key bucket || table.isLast bucket) (fun _ acc => acc)
    seq fuel 0 ()).map fun (j, _) => if hit bp table key (seq j) then some (seq j) else none

/-- The first case of `_insert_raw`: no key of the table has this home bucket. -/
def insertAtHome (fuel : Nat) (table : Table K V) (key : K) (val : V) :
    Option (Table K V × Itr) := do
  let home := table.homeBucket bp key
  if table.Overloaded maxLoad then return (table, endItr)
  else
    let (vacated, table) ← vacate bp fuel table home
    if vacated then
      return (beginChain table home (vtHashfrag (hashFn bp key)) (key, val),
        table.itrAt home (some home))
    else return (table, endItr)

/-- The end of `_insert_raw`: the key joins the chain of its home bucket. -/
def insertInChain (fuel : Nat) (table : Table K V) (key : K) (val : V) :
    Option (Table K V × Itr) := do
  let home := table.homeBucket bp key
  if table.Overloaded maxLoad then return (table, endItr)
  else
    match findFirstEmpty table home with
    | none => return (table, endItr)
    | some (empty, displacement) =>
        let prev ← findInsertLocationInChain fuel table home displacement
        let linked := linkAfter table prev empty displacement (vtHashfrag (hashFn bp key)) (key, val)
        return ({ linked with keyCount := table.keyCount + 1 }, table.itrAt empty (some home))

def insertRaw (fuel : Nat) (table : Table K V) (key : K) (val : V) (unique replace : Bool) :
    Option (Table K V × Itr) := do
  let home := table.homeBucket bp key
  if !table.inHome home then insertAtHome maxLoad bp fuel table key val
  else
    let found ← if unique then some none else searchChain bp fuel table home key
    match found with
    | some bucket =>
        let buckets :=
          if replace then Function.update table.buckets bucket (key, val) else table.buckets
        return ({ table with buckets }, table.itrAt bucket (some home))
    | none => insertInChain maxLoad bp fuel table key val

/-- The table that `_rehash` allocates, whose metadata end in a stopper. -/
def newTable (bucketCount : Nat) : Table K V where
  keyCount := 0
  bucketsMask := bucketCount - 1
  buckets := memory
  metadata := Function.update (fun _ => vtEmpty) bucketCount 0x01#16

/-- The loop of `_rehash` over the old buckets, of which `left` are left. -/
def reinsertFrom (fuel : Nat) (table : Table K V) : Nat → Nat → Table K V → Option (Table K V)
  | 0, _, new => some new
  | left + 1, bucket, new =>
      if table.metadata bucket ≠ vtEmpty then do
        let (key, val) := table.buckets bucket
        let (new, itr) ← insertRaw maxLoad bp fuel new key val true false
        if isEnd itr then return new else reinsertFrom fuel table left (bucket + 1) new
      else reinsertFrom fuel table left (bucket + 1) new

/-- Whether the table was replaced, and the table. An array whose size wraps around
is written past its allocation, which is undefined. -/
def rehash : Nat → Table K V → Nat → Option (Bool × Table K V)
  | 0, _, _ => none
  | fuel + 1, table, bucketCount =>
      if allocator.malloc (totalAllocSize bucketSize bucketCount) = false then some (false, table)
      else if 2 ^ 64 ≤ arraySize bucketSize bucketCount then none
      else do
        let new ← reinsertFrom maxLoad bp (fuel + 1) table table.bucketCount 0
          (newTable memory bucketCount)
        if new.keyCount < table.keyCount then rehash fuel table (doubled bucketCount)
        else return (true, new)

/-- The number of buckets with which an insertion tries again. -/
def grown (table : Table K V) : Nat :=
  if table.bucketsMask ≠ 0 then doubled table.bucketCount else vtMinNonzeroBucketCount

/-- `_insert` with `replace`, and `_get_or_insert` without. -/
def insertLoop (replace : Bool) : Nat → Table K V → K → V → Option (Table K V × Itr)
  | 0, _, _, _ => none
  | fuel + 1, table, key, val => do
      let (table, itr) ← insertRaw maxLoad bp (fuel + 1) table key val false replace
      if !isEnd itr then return (table, itr)
      else
        let (rehashed, table) ← rehash maxLoad bucketSize memory allocator bp (fuel + 1) table
          (grown table)
        if !rehashed then return (table, itr) else insertLoop replace fuel table key val

def insert (fuel : Nat) (table : Table K V) (key : K) (val : V) : Option (Table K V × Itr) :=
  insertLoop maxLoad bucketSize memory allocator bp true fuel table key val

def getOrInsert (fuel : Nat) (table : Table K V) (key : K) (val : V) : Option (Table K V × Itr) :=
  insertLoop maxLoad bucketSize memory allocator bp false fuel table key val

def get (fuel : Nat) (table : Table K V) (key : K) : Option Itr := do
  let home := table.homeBucket bp key
  if !table.inHome home then return endItr
  else
    match ← searchChain bp fuel table home key with
    | some bucket => return table.itrAt bucket (some home)
    | none => return endItr

/-- The home bucket of the key at an iterator, which may not have recorded it. -/
def homeOf (table : Table K V) (itr : Itr) : Nat :=
  match itr.homeBucket with
  | some home => home
  | none =>
      if table.inHome itr.metadatum then itr.metadatum
      else table.homeBucket bp (table.buckets itr.metadatum).1

/-- The second case of `_erase_itr_raw`: the key is the last of several. -/
def eraseLast (fuel : Nat) (table : Table K V) (home bucket : Nat) : Option (Table K V) := do
  let prev ← findPrevious fuel table home bucket
  let metadata := Function.update table.metadata prev (table.metadata prev ||| vtDisplacementMask)
  return { table with metadata := Function.update metadata bucket vtEmpty }

/-- The third case of `_erase_itr_raw`: the last key of the chain takes the place
of the key. It is returned where that key was. -/
def eraseInner (fuel : Nat) (table : Table K V) (home bucket : Nat) :
    Option (Table K V × Nat) := do
  let seq := table.chain home bucket
  let (j, _) ← search table.isLast (fun _ acc => acc) (fun j => seq (j + 1)) fuel 0 ()
  let prev := seq j
  let last := seq (j + 1)
  let buckets := Function.update table.buckets bucket (table.buckets last)
  let metadata := Function.update table.metadata bucket
    ((table.metadata bucket &&& ~~~vtHashFragMask) ||| (table.metadata last &&& vtHashFragMask))
  let metadata := Function.update metadata prev (metadata prev ||| vtDisplacementMask)
  return ({ table with buckets, metadata := Function.update metadata last vtEmpty }, last)

/-- The table, and whether an iteration is to go on past the iterator. -/
def eraseItrRaw (fuel : Nat) (table : Table K V) (itr : Itr) : Option (Table K V × Bool) := do
  let table := { table with keyCount := table.keyCount - 1 }
  let bucket := itr.metadatum
  if table.inHome bucket && table.isLast bucket then
    return ({ table with metadata := Function.update table.metadata bucket vtEmpty }, true)
  else
    let home := homeOf bp table itr
    if table.isLast bucket then
      let table ← eraseLast fuel table home bucket
      return (table, true)
    else
      let (table, last) ← eraseInner fuel table home bucket
      return (table, !decide (last > bucket))

/-- `_erase`, and whether a key was erased. -/
def erase (fuel : Nat) (table : Table K V) (key : K) : Option (Table K V × Bool) := do
  let itr ← get bp fuel table key
  if isEnd itr then return (table, false)
  else
    let (table, _) ← eraseItrRaw bp fuel table itr
    return (table, true)

/-- Whether any of the four metadata read at once is not zero. -/
def anyNonzero (table : Table K V) (p : Nat) : Bool :=
  table.metadata p != vtEmpty || table.metadata (p + 1) != vtEmpty ||
    table.metadata (p + 2) != vtEmpty || table.metadata (p + 3) != vtEmpty

/-- `vt_first_nonzero_uint16` of the four metadata read at once. -/
def firstNonzero (table : Table K V) (p : Nat) : Nat :=
  if table.metadata p ≠ vtEmpty then 0
  else if table.metadata (p + 1) ≠ vtEmpty then 1
  else if table.metadata (p + 2) ≠ vtEmpty then 2
  else 3

def fastForward (fuel : Nat) (table : Table K V) (itr : Itr) : Option Itr :=
  (search (anyNonzero table) (fun _ acc => acc) (fun j => itr.metadatum + 4 * j) fuel 0 ()).map
    fun (j, _) =>
      let offset := 4 * j + firstNonzero table (itr.metadatum + 4 * j)
      ⟨itr.data + offset, itr.metadatum + offset, itr.metadataEnd, none⟩

def next (fuel : Nat) (table : Table K V) (itr : Itr) : Option Itr :=
  fastForward fuel table { itr with data := itr.data + 1, metadatum := itr.metadatum + 1 }

def first (fuel : Nat) (table : Table K V) : Option Itr :=
  if table.keyCount = 0 then some endItr
  else fastForward fuel table (table.itrAt 0 none)

/-- The iterator to the next key after an erasure. -/
def eraseItr (fuel : Nat) (table : Table K V) (itr : Itr) : Option (Table K V × Itr) := do
  let (table, goesOn) ← eraseItrRaw bp fuel table itr
  if goesOn then
    let itr ← next fuel table itr
    return (table, itr)
  else return (table, itr)

/-- The loop of `_min_bucket_count_for_size`. -/
def minBucketCountFrom : Nat → Nat → Nat → Option Nat
  | 0, _, _ => none
  | fuel + 1, size, bucketCount =>
      if (bucketCount : ℚ) * maxLoad < size then minBucketCountFrom fuel size (doubled bucketCount)
      else some bucketCount

def minBucketCountForSize (fuel size : Nat) : Option Nat :=
  if size = 0 then some 0 else minBucketCountFrom maxLoad fuel size vtMinNonzeroBucketCount

/-- Whether there is room, and the table. -/
def reserve (fuel : Nat) (table : Table K V) (size : Nat) : Option (Bool × Table K V) := do
  let bucketCount ← minBucketCountForSize maxLoad fuel size
  if bucketCount ≤ table.bucketCount then return (true, table)
  else rehash maxLoad bucketSize memory allocator bp fuel table bucketCount

def shrink (fuel : Nat) (table : Table K V) : Option (Bool × Table K V) := do
  let bucketCount ← minBucketCountForSize maxLoad fuel table.keyCount
  if bucketCount = table.bucketCount then return (true, table)
  else if bucketCount = 0 then
    return (true, { table with bucketsMask := 0, metadata := fun _ => vtEmpty })
  else rehash maxLoad bucketSize memory allocator bp fuel table bucketCount

def clear (table : Table K V) : Table K V :=
  if table.keyCount = 0 then table
  else
    { table with
      keyCount := 0
      metadata := fun p => if p < table.bucketCount then vtEmpty else table.metadata p }

end Model

end HashBench.Verstable
