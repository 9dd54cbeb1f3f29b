import HashBench.Library.While
import HashBench.Pairs
import Mathlib.Data.Rat.Floor

/-! The table of ankerl::unordered_dense and its shim: the pairs lie in a dense
vector, and a Robin Hood index of buckets refers to them. `none` is a loop whose
fuel ran out, an exception, or undefined behaviour. Allocations succeed, and
numbers of 32 and 64 bits are taken modulo their widths where they can wrap. -/
namespace HashBench.UnorderedDense

open While

/-- `Bucket::dist_inc`, which skips the byte of the fingerprint. -/
def distIncrement : Nat := 1 <<< 8

def fingerprintMask : Nat := distIncrement - 1

/-- The distance to the original bucket in the upper three bytes and the
fingerprint in the lowest, and an index into the vector. -/
structure Bucket where
  distAndFingerprint : Nat
  valueIdx : Nat
  deriving DecidableEq, Repr

def distInc (x : Nat) : Nat := (x + distIncrement) % 2 ^ 32

def distDec (x : Nat) : Nat := (x + 2 ^ 32 - distIncrement) % 2 ^ 32

/-- `max_size()`, which is `max_bucket_count()` too. -/
def maxSize : Nat := 2 ^ 32

def initialShifts : Nat := 64 - 3

structure Table (K V : Type) where
  values : List (K × V)
  buckets : Nat → Bucket
  numBuckets : Nat
  maxBucketCapacity : Nat
  shifts : Nat

def calcNumBuckets (shifts : Nat) : Nat := min maxSize (1 <<< (64 - shifts))

def distAndFingerprintFromHash (hash : Nat) : Nat :=
  distIncrement ||| (hash % 2 ^ 32 &&& fingerprintMask)

section Model

variable {K V : Type} (maxLoad : ℚ) (bp : Blueprint K V)

/-- The shim's hash function is marked as avalanching and used as it is. -/
def mixedHash (key : K) : Nat := bp.hashKey key % 2 ^ 64

/-- A number of buckets times the load factor, which a `float` holds exactly. -/
def capacityOf (numBuckets : Nat) : Nat := ⌊(numBuckets : ℚ) * maxLoad⌋₊

/-- The loop of `calc_shifts_for_size` from a value of `shifts` on. -/
def calcShiftsFrom (size : Nat) : Nat → Nat
  | 0 => 0
  | shifts + 1 =>
      if capacityOf maxLoad (calcNumBuckets (shifts + 1)) < size then calcShiftsFrom size shifts
      else shifts + 1

def calcShiftsForSize (size : Nat) : Nat := calcShiftsFrom maxLoad size initialShifts

def createTable : Table K V where
  values := []
  buckets _ := ⟨0, 0⟩
  numBuckets := 0
  maxBucketCapacity := capacityOf maxLoad 0
  shifts := initialShifts

/-- A loop's distance and fingerprint, and its bucket. -/
structure Cursor where
  distAndFingerprint : Nat
  bucketIdx : Nat
  deriving DecidableEq, Repr

/-- A loop's buckets, the bucket that it carries and the place of it. -/
structure Carry where
  buckets : Nat → Bucket
  bucket : Bucket
  place : Nat

/-- A loop's buckets, and two neighbours. -/
structure Gap where
  buckets : Nat → Bucket
  bucketIdx : Nat
  nextBucketIdx : Nat

namespace Table

variable (table : Table K V)

def next (bucketIdx : Nat) : Nat :=
  if (bucketIdx + 1) % 2 ^ 32 = table.numBuckets then 0 else (bucketIdx + 1) % 2 ^ 32

def bucketIdxFromHash (hash : Nat) : Nat := (hash >>> table.shifts) % 2 ^ 32

/-- Where the loops for a key begin. -/
def cursor (key : K) : Cursor :=
  ⟨distAndFingerprintFromHash (mixedHash bp key), table.bucketIdxFromHash (mixedHash bp key)⟩

def advance (cursor : Cursor) : Cursor :=
  ⟨distInc cursor.distAndFingerprint, table.next cursor.bucketIdx⟩

def isFull : Bool := table.maxBucketCapacity ≤ table.values.length

/-- `m_equal` of a key and the one that a bucket refers to. -/
def equal (key : K) (bucketIdx : Nat) : Bool :=
  table.values[(table.buckets bucketIdx).valueIdx]?.any fun pair => bp.cmprKeys key pair.1

/-- The bucket has the distance and the fingerprint, and the key. -/
def hit (key : K) (cursor : Cursor) : Bool :=
  cursor.distAndFingerprint == (table.buckets cursor.bucketIdx).distAndFingerprint &&
    table.equal bp key cursor.bucketIdx

/-- Neither is the key found nor does the loop end for a bucket too near to its home. -/
def probing (key : K) (cursor : Cursor) : Bool :=
  if cursor.distAndFingerprint = (table.buckets cursor.bucketIdx).distAndFingerprint then
    !table.equal bp key cursor.bucketIdx
  else !decide ((table.buckets cursor.bucketIdx).distAndFingerprint < cursor.distAndFingerprint)

def nextWhileLess (fuel : Nat) (key : K) : Option Cursor :=
  loop (fun c => decide (c.distAndFingerprint < (table.buckets c.bucketIdx).distAndFingerprint))
    table.advance fuel (table.cursor bp key)

/-- One round of `place_and_shift_up`. -/
def shiftUp (carry : Carry) : Carry :=
  let old := carry.buckets carry.place
  ⟨Function.update carry.buckets carry.place carry.bucket,
    ⟨distInc old.distAndFingerprint, old.valueIdx⟩, table.next carry.place⟩

def placeAndShiftUp (fuel : Nat) (bucket : Bucket) (place : Nat) : Option (Table K V) :=
  (loop (fun carry => 0 != (carry.buckets carry.place).distAndFingerprint) table.shiftUp fuel
    ⟨table.buckets, bucket, place⟩).map fun carry =>
      { table with buckets := Function.update carry.buckets carry.place carry.bucket }

/-- A shift by all 64 bits is undefined. -/
def allocateBucketsFromShift : Option (Table K V) :=
  if table.shifts = 0 then none
  else
    let numBuckets := calcNumBuckets table.shifts
    let maxBucketCapacity :=
      if numBuckets = maxSize then maxSize else capacityOf maxLoad numBuckets
    some { table with numBuckets, maxBucketCapacity }

def clearBuckets : Table K V := { table with buckets := fun _ => ⟨0, 0⟩ }

/-- One round of `clear_and_fill_buckets_from_values`. -/
def fillOne (fuel : Nat) (table : Table K V) (valueIdx : Nat) : Option (Table K V) := do
  let pair ← table.values[valueIdx]?
  let cursor ← table.nextWhileLess bp fuel pair.1
  table.placeAndShiftUp fuel ⟨cursor.distAndFingerprint, valueIdx⟩ cursor.bucketIdx

def clearAndFillBucketsFromValues (fuel : Nat) : Option (Table K V) :=
  (List.range (table.values.length % 2 ^ 32)).foldlM (fillOne bp fuel) table.clearBuckets

/-- Buckets for another value of `m_shifts`, filled from the vector. -/
def reallocate (fuel : Nat) (shifts : Nat) : Option (Table K V) := do
  let table ← allocateBucketsFromShift maxLoad { table with shifts }
  table.clearAndFillBucketsFromValues bp fuel

/-- Throws when there are as many buckets as there can be. -/
def increaseSize (fuel : Nat) : Option (Table K V) :=
  if table.maxBucketCapacity = maxSize then none
  else table.reallocate maxLoad bp fuel (table.shifts - 1)

/-- One round of the loop of `do_erase` that shifts buckets down. -/
def shiftDown (gap : Gap) : Gap :=
  let moved := gap.buckets gap.nextBucketIdx
  ⟨Function.update gap.buckets gap.bucketIdx ⟨distDec moved.distAndFingerprint, moved.valueIdx⟩,
    gap.nextBucketIdx, table.next gap.nextBucketIdx⟩

/-- The last pair is moved to an index, and the bucket that refers to it follows. -/
def moveBack (fuel : Nat) (valueIdx : Nat) : Option (Table K V) := do
  let back ← table.values.getLast?
  let valuesIdxBack := (table.values.length - 1) % 2 ^ 32
  let bucketIdx ← loop (fun b => valuesIdxBack != (table.buckets b).valueIdx) table.next fuel
    (table.bucketIdxFromHash (mixedHash bp back.1))
  let buckets := Function.update table.buckets bucketIdx
    { table.buckets bucketIdx with valueIdx := valueIdx }
  return { table with values := table.values.set valueIdx back, buckets }

/-- `do_erase` after the buckets were shifted: the pair leaves the vector. -/
def dropValue (fuel : Nat) (valueIdx : Nat) : Option (Table K V) :=
  (if valueIdx ≠ table.values.length - 1 then table.moveBack bp fuel valueIdx
    else some table).map fun table => { table with values := table.values.dropLast }

def doErase (fuel : Nat) (bucketIdx : Nat) : Option (Table K V) := do
  let valueIdxToRemove := (table.buckets bucketIdx).valueIdx
  let gap ← loop
    (fun gap => decide (distIncrement * 2 ≤ (gap.buckets gap.nextBucketIdx).distAndFingerprint))
    table.shiftDown fuel ⟨table.buckets, bucketIdx, table.next bucketIdx⟩
  let table := { table with buckets := Function.update gap.buckets gap.bucketIdx ⟨0, 0⟩ }
  table.dropValue bp fuel valueIdxToRemove

/-- The loop of `do_erase_key` among the buckets of one distance and fingerprint. -/
def eraseCursor (fuel : Nat) (key : K) : Option Cursor := do
  let cursor ← table.nextWhileLess bp fuel key
  loop (fun c => c.distAndFingerprint == (table.buckets c.bucketIdx).distAndFingerprint &&
    !table.equal bp key c.bucketIdx) table.advance fuel cursor

def doEraseKey (fuel : Nat) (key : K) : Option (Table K V × Nat) :=
  if table.values.isEmpty then some (table, 0)
  else do
    let cursor ← table.eraseCursor bp fuel key
    if cursor.distAndFingerprint ≠ (table.buckets cursor.bucketIdx).distAndFingerprint then
      return (table, 0)
    else
      let table ← table.doErase bp fuel cursor.bucketIdx
      return (table, 1)

def doPlaceElement (fuel : Nat) (cursor : Cursor) (key : K) (val : V) :
    Option (Table K V × Nat × Bool) := do
  let table := { table with values := table.values ++ [(key, val)] }
  let valueIdx := (table.values.length - 1) % 2 ^ 32
  let table ← table.placeAndShiftUp fuel ⟨cursor.distAndFingerprint, valueIdx⟩ cursor.bucketIdx
  return (table, valueIdx, true)

/-- The loop of `do_try_emplace` and of `do_find`. -/
def probe (fuel : Nat) (key : K) (cursor : Cursor) : Option Cursor :=
  loop (table.probing bp key) table.advance fuel cursor

/-- The table made large enough for one more pair. -/
def grown (fuel : Nat) : Option (Table K V) :=
  if table.isFull then table.increaseSize maxLoad bp fuel else some table

/-- `do_try_emplace` after the table was made large enough. -/
def emplaceInto (fuel : Nat) (key : K) (val : V) : Option (Table K V × Nat × Bool) := do
  let cursor ← table.probe bp fuel key (table.cursor bp key)
  if table.hit bp key cursor then
    return (table, (table.buckets cursor.bucketIdx).valueIdx, false)
  else table.doPlaceElement fuel cursor key val

/-- An index into the vector, and whether the pair was inserted. -/
def doTryEmplace (fuel : Nat) (key : K) (val : V) : Option (Table K V × Nat × Bool) := do
  let table ← table.grown maxLoad bp fuel
  table.emplaceInto bp fuel key val

/-- `table[ key ] = val`. -/
def assign (fuel : Nat) (key : K) (val : V) : Option (Table K V) := do
  let (table, valueIdx, _) ← table.doTryEmplace maxLoad bp fuel key bp.valueType
  return { table with values := table.values.modify valueIdx fun pair => (pair.1, val) }

/-- An index into the vector, or `none` for `end()`. -/
def doFind (fuel : Nat) (key : K) : Option (Option Nat) :=
  if table.values.isEmpty then some none
  else
    let first := table.cursor bp key
    let second := table.advance first
    if table.hit bp key first then some (some (table.buckets first.bucketIdx).valueIdx)
    else if table.hit bp key second then some (some (table.buckets second.bucketIdx).valueIdx)
    else (table.probe bp fuel key (table.advance second)).map fun last =>
      if table.hit bp key last then some (table.buckets last.bucketIdx).valueIdx else none

/-- `erase( iterator )`, whose iterator is an index into the vector. -/
def erase (fuel : Nat) (valueIdx : Nat) : Option (Table K V) := do
  let pair ← table.values[valueIdx]?
  let bucketIdx ← loop (fun b => (table.buckets b).valueIdx != valueIdx) table.next fuel
    (table.bucketIdxFromHash (mixedHash bp pair.1))
  table.doErase bp fuel bucketIdx

/-- `erase( first, last )`: from the left up to `mid`, then from the right. -/
def eraseRange (fuel : Nat) (first last : Nat) : Option (Table K V) := do
  let mid := first + min (last - first) (table.values.length - last)
  let table ← (List.range' first (mid - first)).foldlM (fun table idx => table.erase bp fuel idx)
    table
  (List.range' mid (last - mid)).reverse.foldlM (fun table idx => table.erase bp fuel idx) table

/-- One round of `std::erase_if`. -/
def eraseIfAt (pred : K × V → Bool) (fuel : Nat) (table : Table K V) (idx : Nat) :
    Option (Table K V) := do
  let pair ← table.values[idx]?
  if pred pair then table.erase bp fuel idx else some table

/-- `std::erase_if`, from the back to the front. -/
def eraseIf (fuel : Nat) (pred : K × V → Bool) : Option (Table K V) :=
  (List.range table.values.length).reverse.foldlM (eraseIfAt bp pred fuel) table

def clear : Table K V := { table.clearBuckets with values := [] }

def rehash (fuel : Nat) (count : Nat) : Option (Table K V) :=
  let shifts := calcShiftsForSize maxLoad (max (min count maxSize) table.values.length)
  if shifts ≠ table.shifts then table.reallocate maxLoad bp fuel shifts else some table

def reserve (fuel : Nat) (capa : Nat) : Option (Table K V) :=
  let shifts := calcShiftsForSize maxLoad (max (min capa maxSize) table.values.length)
  if table.numBuckets = 0 ∨ shifts < table.shifts then table.reallocate maxLoad bp fuel shifts
  else some table

/-- The pair at an index takes the last one's place and is dropped. -/
def dropAt (valueIdx : Nat) : Option (Table K V) := do
  let back ← table.values.getLast?
  return { table with values := (table.values.set valueIdx back).dropLast }

/-- The loop of `replace` from an index on. -/
def replaceFrom : Nat → Table K V → Nat → Option (Table K V)
  | 0, _, _ => none
  | fuel + 1, table, valueIdx =>
      if valueIdx = table.values.length % 2 ^ 32 then some table
      else do
        let pair ← table.values[valueIdx]?
        let cursor ← table.probe bp fuel pair.1 (table.cursor bp pair.1)
        if table.hit bp pair.1 cursor then
          let table ← table.dropAt valueIdx
          replaceFrom fuel table valueIdx
        else
          let table ← table.placeAndShiftUp fuel ⟨cursor.distAndFingerprint, valueIdx⟩
            cursor.bucketIdx
          replaceFrom fuel table (valueIdx + 1)

/-- The buckets for a container of a size that replaces the vector. -/
def resizedFor (size : Nat) : Option (Table K V) :=
  let shifts := calcShiftsForSize maxLoad size
  if table.numBuckets = 0 ∨ shifts < table.shifts then
    allocateBucketsFromShift maxLoad { table with shifts }
  else some table

/-- `replace( container )`, for equal allocators. -/
def replace (fuel : Nat) (container : List (K × V)) : Option (Table K V) :=
  if maxSize < container.length then none
  else do
    let table ← table.resizedFor maxLoad container.length
    replaceFrom bp fuel { table.clearBuckets with values := container } 0

/-- The loop of `operator==` over the other table's pairs. -/
def equalsFrom [DecidableEq V] (fuel : Nat) : List (K × V) → Option Bool
  | [] => some true
  | entry :: rest => do
      let it ← table.doFind bp fuel entry.1
      match it.bind (table.values[·]?) with
      | none => return false
      | some pair => if entry.2 = pair.2 then equalsFrom fuel rest else return false

/-- `operator==` of two tables at different addresses. -/
def equals [DecidableEq V] (fuel : Nat) (other : Table K V) : Option Bool :=
  if table.values.length ≠ other.values.length then some false
  else table.equalsFrom bp fuel other.values

end Table

end Model

end HashBench.UnorderedDense
