import HashBench.Library.Search
import HashBench.Blueprint
import Mathlib.Algebra.Group.Nat.Defs

/-! The modified emilib2 hash map and the emilib2O shim. A bucket has a state
byte, which is read in groups of 16, and four main buckets share a byte for the
length of their probes. The probe is not linear, and the macro for long probes
is not defined. -/
namespace HashBench.Emilib2O

open Search

/-- `State`. A filled bucket has a state from `EFILLED` on. -/
def eFilled : Int := -126

def eDelete : Int := -127

def eEmpty : Int := -128

def sentinel : Int := 127

/-- The number of lanes that are compared at once. -/
def simdBytes : Nat := 16

def offsetStep : Nat := 4

/-- The mask of the buckets is one less than their number. -/
structure Table (K V : Type) where
  states : Nat → Int
  offset : Nat → Nat
  pairs : Nat → K × V
  numBuckets : Nat
  numFilled : Nat

/-- A size in 32 bits came out too small, and the new table is written beyond
its allocation. -/
inductive Fault where
  | heapOverflow
  deriving DecidableEq, Repr

/-- A computation that may run out of fuel or end in a fault. -/
abbrev Exec := ExceptT Fault Option

section Probing

/-- The first lane from `bucket` on whose bit is set in a mask. -/
def firstLane (mask : Nat → Bool) (bucket : Nat) : Option Nat :=
  ((List.range simdBytes).find? fun lane => mask (bucket + lane)).map (bucket + ·)

def getNextBucket (numBuckets nextBucket offset : Nat) : Nat :=
  let nextBucket := nextBucket + if offset < 8 then simdBytes * offset else numBuckets / 32
  let nextBucket := nextBucket + 1
  nextBucket &&& (numBuckets - 1)

/-- The buckets where the groups of a probe begin, from round `offset` on. -/
def walk (numBuckets nextBucket offset : Nat) : Nat → Nat
  | 0 => nextBucket
  | round + 1 =>
      getNextBucket numBuckets (walk numBuckets nextBucket offset round) (offset + round + 1)

end Probing

variable {K V : Type}

namespace Table

variable (t : Table K V)

def getOffset (mainBucket : Nat) : Nat := t.offset (mainBucket / offsetStep)

/-- The probe length is cut to its lowest byte. -/
def setOffset (mainBucket off : Nat) : Table K V :=
  { t with offset := Function.update t.offset (mainBucket / offsetStep) (off % 2 ^ 8) }

def setStates (ebucket : Nat) (keyH2 : Int) : Table K V :=
  { t with states := Function.update t.states ebucket keyH2 }

def isEmpty (bucket : Nat) : Bool := t.states bucket == eEmpty

def isDelete (bucket : Nat) : Bool := t.states bucket == eDelete

/-- The lanes of `empty_delete`. -/
def emptyDelete (bucket : Nat) : Bool := decide (t.states bucket < eFilled)

def isFilled (bucket : Nat) : Bool := decide (eFilled ≤ t.states bucket)

/-- The groups of the probe of a main bucket. -/
def probe (mainBucket : Nat) : Nat → Nat := walk t.numBuckets mainBucket 0

end Table

section Model

variable (bp : Blueprint K V)

/-- The main bucket of `hash_key2`. -/
def mainBucket (t : Table K V) (key : K) : Nat :=
  bp.hashKey key % 2 ^ 32 &&& (t.numBuckets - 1)

/-- The state byte that `hash_key2` returns. -/
def keyH2 (key : K) : Int := (bp.hashKey key % 253 : Nat) + eFilled

/-- The lanes where a key is found. -/
def hits (t : Table K V) (key : K) (bucket : Nat) : Bool :=
  t.states bucket == keyH2 bp key && bp.cmprKeys (t.pairs bucket).1 key

/-- The round in which the search for a key ends: the key is found, or the
first group has an empty bucket, or the length of the probe is reached. -/
def findStops (t : Table K V) (key : K) (round : Nat) : Bool :=
  let main := mainBucket bp t key
  (firstLane (hits bp t key) (t.probe main round)).isSome ||
    round == 0 && (firstLane t.isEmpty (t.probe main round)).isSome ||
    decide (t.getOffset main < round + 1)

def findFilledBucket (fuel : Nat) (t : Table K V) (key : K) : Option Nat :=
  (search (findStops bp t key) (fun _ acc => acc) id fuel 0 ()).map fun (round, _) =>
    (firstLane (hits bp t key) (t.probe (mainBucket bp t key) round)).getD t.numBuckets

def findEmptySlot (fuel : Nat) (t : Table K V) (mainBucket nextBucket offset : Nat) :
    Option (Nat × Table K V) :=
  let groups := walk t.numBuckets nextBucket offset
  (search (fun bucket => (firstLane t.emptyDelete bucket).isSome) (fun _ acc => acc) groups fuel
    0 ()).map fun (round, _) =>
      let offset := offset + round
      ((firstLane t.emptyDelete (groups round)).getD 0,
        if t.getOffset mainBucket < offset then t.setOffset mainBucket offset else t)

/-- A pair is constructed in a bucket whose state is set. -/
def Table.construct (t : Table K V) (bucket : Nat) (pair : K × V) : Table K V :=
  { t with pairs := Function.update t.pairs bucket pair, numFilled := t.numFilled + 1 }

section Rehash

/-- `while (num_buckets < required_buckets)`, on 32 bits. -/
def doubleBuckets (requiredBuckets : Nat) : (fuel numBuckets : Nat) → Option Nat
  | 0, _ => none
  | fuel + 1, numBuckets =>
      if numBuckets < requiredBuckets then
        doubleBuckets requiredBuckets fuel (numBuckets * 2 % 2 ^ 32)
      else some numBuckets

/-- The states and the offsets of so many buckets exceed the bytes asked for. -/
def exceedsAllocation (numBuckets : Nat) : Bool :=
  let stateSize := simdBytes + numBuckets
  decide (stateSize * 2 % 2 ^ 32 < stateSize + numBuckets / offsetStep)

/-- The new table. Its pairs are what the memory holds. -/
def newTable (memory : Nat → K × V) (numBuckets : Nat) : Table K V where
  states bucket := if bucket < numBuckets then eEmpty else sentinel
  offset _ := 0
  pairs := memory
  numBuckets := numBuckets
  numFilled := 0

/-- The body of the loop over the old buckets, which ends when all are moved. -/
def moveBucket (fuel : Nat) (old t : Table K V) (srcBucket : Nat) : Option (Table K V) :=
  if t.numFilled < old.numFilled ∧ old.isFilled srcBucket = true then
    let srcPair := old.pairs srcBucket
    let main := mainBucket bp t srcPair.1
    (findEmptySlot fuel t main main 0).map fun (bucket, t) =>
      (t.setStates bucket (keyH2 bp srcPair.1)).construct bucket srcPair
  else some t

/-- The old buckets, from the last one down. -/
def srcBuckets (old : Table K V) : List Nat := (List.range old.numBuckets).reverse

variable (memory : Nat → K × V)

def rehash (fuel : Nat) (t : Table K V) (numElems : Nat) : Exec (Table K V) := do
  let requiredBuckets := numElems
  if requiredBuckets < t.numFilled then pure t
  else
    let numBuckets ← lift (doubleBuckets requiredBuckets fuel
      (if 2 ^ 16 < t.numFilled then 2 ^ 16 else simdBytes))
    if exceedsAllocation numBuckets = true then throw .heapOverflow
    else lift ((srcBuckets t).foldlM (moveBucket bp fuel t) (newTable memory numBuckets))

/-- The quotient by 0.875 is rounded down. -/
def reserve (fuel : Nat) (t : Table K V) (numElems : Nat) : Exec (Table K V) :=
  let requiredBuckets := numElems * 8 / 7
  if requiredBuckets < t.numBuckets then pure t
  else rehash bp memory fuel t (requiredBuckets + 2)

end Rehash

/-- The round in which the search for a bucket ends: the key is found, or the
group has an empty bucket, or the length of the probe is reached. -/
def allocateStops (t : Table K V) (key : K) (round : Nat) : Bool :=
  let main := mainBucket bp t key
  (firstLane (hits bp t key) (t.probe main round)).isSome ||
    (firstLane t.isEmpty (t.probe main round)).isSome ||
    decide (t.getOffset main < round + 1)

/-- The first erased bucket that is passed. -/
def noteHole (t : Table K V) (main round : Nat) (hole : Option Nat) : Option Nat :=
  if hole = none then firstLane t.isDelete (t.probe main round) else hole

/-- The bucket of a key, whether it is a new one, and the table with its state set. -/
def allocate (fuel : Nat) (t : Table K V) (key : K) : Option (Nat × Bool × Table K V) :=
  let main := mainBucket bp t key
  (search (allocateStops bp t key) (noteHole t main) id fuel 0 none).bind fun (round, hole) =>
    match firstLane (hits bp t key) (t.probe main round) with
    | some fbucket => some (fbucket, false, t)
    | none =>
        match firstLane t.isEmpty (t.probe main round) with
        | some ebucket =>
            let ebucket := hole.getD ebucket
            some (ebucket, true, t.setStates ebucket (keyH2 bp key))
        | none =>
            match noteHole t main round hole with
            | some hole => some (hole, true, t.setStates hole (keyH2 bp key))
            | none =>
                let offset := round + 1
                (findEmptySlot fuel t main (t.probe main offset) offset).map fun (ebucket, t) =>
                  (ebucket, true, t.setStates ebucket (keyH2 bp key))

variable (memory : Nat → K × V)

def findOrAllocate (fuel : Nat) (t : Table K V) (key : K) : Exec (Nat × Bool × Table K V) := do
  let t ← reserve bp memory fuel t t.numFilled
  lift (allocate bp fuel t key)

/-- `operator[]`. -/
def index (fuel : Nat) (t : Table K V) (key : K) : Exec (Nat × Table K V) := do
  let (bucket, bempty, t) ← findOrAllocate bp memory fuel t key
  pure (bucket, if bempty = true then t.construct bucket (key, bp.valueType) else t)

/-- `_erase`. -/
def eraseAt (t : Table K V) (bucket : Nat) : Table K V :=
  let t := { t with numFilled := t.numFilled - 1 }
  let t := t.setStates bucket eDelete
  if t.numFilled = 0 then
    { t with
      states := fun b => if b < t.numBuckets then eEmpty else t.states b
      offset := fun c => if c < t.numBuckets / offsetStep then 0 else t.offset c }
  else t

/-- The constructor, which makes room for 4 elements in a table without buckets. -/
def hashMap (fuel : Nat) : Exec (Table K V) :=
  rehash bp memory fuel ⟨fun _ => sentinel, fun _ => 0, memory, 0, 0⟩ 4

namespace Shim

def createTable (fuel : Nat) : Exec (Table K V) := hashMap bp memory fuel

def find (fuel : Nat) (table : Table K V) (key : K) : Option Nat :=
  findFilledBucket bp fuel table key

def insert (fuel : Nat) (table : Table K V) (key : K) : Exec (Table K V) := do
  let (bucket, table) ← index bp memory fuel table key
  pure { table with
    pairs := Function.update table.pairs bucket ((table.pairs bucket).1, bp.valueType) }

def erase (fuel : Nat) (table : Table K V) (key : K) : Exec (Table K V) :=
  lift ((findFilledBucket bp fuel table key).map fun bucket =>
    if bucket = table.numBuckets then table else eraseAt table bucket)

def isItrValid (table : Table K V) (itr : Nat) : Bool := decide (itr ≠ table.numBuckets)

def getKeyFromItr (table : Table K V) (itr : Nat) : K := (table.pairs itr).1

def call (fuel : Nat) (table : Table K V) : Op K → Exec (Table K V)
  | .insert key => insert bp memory fuel table key
  | .erase key => erase bp fuel table key

/-- The table after these calls on a fresh one. -/
def run (fuel : Nat) (ops : List (Op K)) : Exec (Table K V) := do
  let table ← createTable bp memory fuel
  ops.foldlM (call bp memory fuel) table

end Shim

end Model

end HashBench.Emilib2O
