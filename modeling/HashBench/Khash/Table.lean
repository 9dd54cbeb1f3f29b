import HashBench.Library.Circle
import HashBench.Library.Triangular
import HashBench.Library.Buffer
import HashBench.Library.Iteration
import HashBench.Blueprint
import Mathlib.Data.Rat.Floor

/-! The table of khash and the khash shim, whose load factor replaces the
library's own. Every access to the flags, keys and values is checked against
the number of buckets allocated. Allocations succeed. -/
namespace HashBench.Khash

open Search Triangular Iteration Memory

/-- The array in which an index is out of bounds. -/
inductive Fault where
  | flags
  | keys
  | vals
  deriving DecidableEq, Repr

/-- A computation that may run out of fuel or end in a fault. -/
abbrev Exec := ExceptT Fault Option

/-- The two bits of a bucket. -/
structure Flag where
  isempty : Bool
  isdel : Bool
  deriving DecidableEq, Repr

namespace Flag

def iseither (flag : Flag) : Bool := flag.isempty || flag.isdel
def setIsemptyFalse (flag : Flag) : Flag := { flag with isempty := false }
def setIsbothFalse : Flag := ⟨false, false⟩
def setIsdelTrue (flag : Flag) : Flag := { flag with isdel := true }

/-- The bits of a byte `0xaa`. -/
def fresh : Flag := ⟨true, false⟩

end Flag

structure Table (K V : Type) where
  nBuckets : Nat
  size : Nat
  nOccupied : Nat
  upperBound : Nat
  flags : Buffer Flag
  keys : Buffer K
  vals : Buffer V

/-- `n + 1` on a `khint_t`. -/
def khintSucc (n : Nat) : Nat := (n + 1) % 2 ^ 32

/-- `n - 1` on a `khint_t`. -/
def khintPred (n : Nat) : Nat := if n = 0 then 2 ^ 32 - 1 else n - 1

def kroundup32 (x : Nat) : Nat :=
  let x := khintPred x
  let x := x ||| x >>> 1
  let x := x ||| x >>> 2
  let x := x ||| x >>> 4
  let x := x ||| x >>> 8
  let x := x ||| x >>> 16
  khintSucc x

/-- The number of buckets that `kh_resize` makes of the one requested. -/
def roundBuckets (newNBuckets : Nat) : Nat := max (kroundup32 newNBuckets) 4

/-- `(khint_t) (n_buckets * __ac_HASH_UPPER + 0.5)`. -/
def upperBoundOf (maxLoadFactor : ℚ) (nBuckets : Nat) : Nat :=
  ⌊(nBuckets : ℚ) * maxLoadFactor + 1 / 2⌋₊ % 2 ^ 32

section Model

variable {K V : Type} (maxLoadFactor : ℚ) (memory : Nat → K × V) (bp : Blueprint K V)

/-- `kh_init`. The arrays are not allocated. -/
def init : Table K V where
  nBuckets := 0
  size := 0
  nOccupied := 0
  upperBound := 0
  flags := ⟨0, fun _ => Flag.fresh⟩
  keys := ⟨0, fun p => (memory p).1⟩
  vals := ⟨0, fun p => (memory p).2⟩

/-- The hash of a key as a `khint_t`. -/
def hashOf (key : K) : Nat := bp.hashKey key % 2 ^ 32

/-- The positions that a probe for a key inspects. -/
def probeSeq (h : Table K V) (key : K) : Nat → Nat := probe (khintPred h.nBuckets) (hashOf bp key)

/-- The condition of a probe loop, under which it goes on past bucket `i`. -/
def passes (h : Table K V) (key : K) (i : Nat) : Except Fault Bool := do
  let flag ← h.flags.read .flags i
  if flag.isempty then return false
  else if flag.isdel then return true
  else return !bp.cmprKeys (← h.keys.read .keys i) key

/-- A probe loop ends, or faults, at bucket `i`. -/
def stops (h : Table K V) (key : K) (i : Nat) : Bool :=
  match passes bp h key i with
  | .ok true => false
  | _ => true

/-- A probe loop. It returns the bucket at which it ends, whether that is the
first one again, and what it has noted. -/
def probeFor {σ : Type} (update : Nat → σ → σ) (acc : σ) (fuel : Nat) (h : Table K V) (key : K) :
    Exec (Nat × Bool × σ) :=
  let seq := probeSeq bp h key
  ExceptT.mk <| (searchCircle (stops bp h key) update seq fuel acc).map fun (j, acc) =>
    if Back seq j then .ok (seq j, true, acc)
    else do
      let _ ← passes bp h key (seq j)
      return (seq j, false, acc)

def khGet (fuel : Nat) (h : Table K V) (key : K) : Exec Nat := do
  if h.nBuckets ≠ 0 then
    let (i, isBack, _) ← probeFor bp (fun _ acc => acc) () fuel h key
    if isBack then return h.nBuckets
    else
      let flag ← check (h.flags.read .flags i)
      return if flag.iseither then h.nBuckets else i
  else return 0

/-- What the kick-out process works on: the old and the new flags, and the one
array of keys and values to which both refer. -/
structure Rehash (K V : Type) where
  flags : Buffer Flag
  newFlags : Buffer Flag
  keys : Buffer K
  vals : Buffer V

/-- Whether the new flags say that bucket `i` is empty, or cannot be read. -/
def newEmpty (newFlags : Buffer Flag) (i : Nat) : Bool :=
  match newFlags.read Fault.flags i with
  | .ok flag => flag.isempty
  | .error _ => true

/-- The first empty bucket on the probe for a key under the new flags. -/
def firstEmpty (newMask fuel : Nat) (newFlags : Buffer Flag) (key : K) : Option Nat :=
  let seq := probe newMask (hashOf bp key)
  (search (newEmpty newFlags) (fun _ acc => acc) seq fuel 0 ()).map fun (j, _) => seq j

/-- Whether the old flags say that bucket `i` holds a pair. -/
def isOld (flags : Buffer Flag) (nBuckets i : Nat) : Except Fault Bool := do
  if i < nBuckets then return !(← flags.read .flags i).iseither else return false

/-- One round of the kick-out process. The pair goes to bucket `i`, and the pair
found there under the old flags is returned. -/
def kickOutAt (nBuckets i : Nat) (key : K) (val : V) (state : Rehash K V) :
    Except Fault (Rehash K V × Option (K × V)) := do
  let newFlag ← state.newFlags.read .flags i
  let newFlags ← state.newFlags.write .flags i newFlag.setIsemptyFalse
  if ← isOld state.flags nBuckets i then
    let oldKey ← state.keys.read .keys i
    let keys ← state.keys.write .keys i key
    let oldVal ← state.vals.read .vals i
    let vals ← state.vals.write .vals i val
    let oldFlag ← state.flags.read .flags i
    let flags ← state.flags.write .flags i oldFlag.setIsdelTrue
    return (⟨flags, newFlags, keys, vals⟩, some (oldKey, oldVal))
  else
    let keys ← state.keys.write .keys i key
    let vals ← state.vals.write .vals i val
    return (⟨state.flags, newFlags, keys, vals⟩, none)

/-- The kick-out process, which ends with a pair that kicks out no other. -/
def kickOut (nBuckets newMask : Nat) : Nat → K → V → Rehash K V → Exec (Rehash K V)
  | 0, _, _, _ => ExceptT.mk none
  | fuel + 1, key, val, state => do
      let i ← ExceptT.mk ((firstEmpty bp newMask (fuel + 1) state.newFlags key).map .ok)
      let (state, kicked) ← check (kickOutAt nBuckets i key val state)
      match kicked with
      | some (key, val) => kickOut nBuckets newMask fuel key val state
      | none => return state

/-- The body of the loop over the old buckets. -/
def rehashAt (nBuckets newMask fuel j : Nat) (state : Rehash K V) : Exec (Rehash K V) := do
  let flag ← check (state.flags.read .flags j)
  if !flag.iseither then
    let key ← check (state.keys.read .keys j)
    let val ← check (state.vals.read .vals j)
    let flags ← check (state.flags.write .flags j flag.setIsdelTrue)
    kickOut bp nBuckets newMask fuel key val { state with flags }
  else return state

/-- The loop over the first `count` old buckets. -/
def rehashTo (nBuckets newMask fuel : Nat) (state : Rehash K V) : Nat → Exec (Rehash K V)
  | 0 => pure state
  | count + 1 => do
      let state ← rehashTo nBuckets newMask fuel state count
      rehashAt bp nBuckets newMask fuel count state

/-- The requested size is too small. -/
def Refuses (h : Table K V) (newNBuckets : Nat) : Prop :=
  upperBoundOf maxLoadFactor (roundBuckets newNBuckets) ≤ h.size

instance (h : Table K V) (newNBuckets : Nat) : Decidable (Refuses maxLoadFactor h newNBuckets) :=
  Nat.decLe _ _

def khResize (fuel : Nat) (h : Table K V) (newNBuckets : Nat) : Exec (Table K V) := do
  let n := roundBuckets newNBuckets
  if Refuses maxLoadFactor h newNBuckets then return h
  else
    let keys := if h.nBuckets < n then h.keys.realloc n else h.keys
    let vals := if h.nBuckets < n then h.vals.realloc n else h.vals
    let state ← rehashTo bp h.nBuckets (khintPred n) fuel
      ⟨h.flags, ⟨n, fun _ => Flag.fresh⟩, keys, vals⟩ h.nBuckets
    return {
      nBuckets := n
      size := h.size
      nOccupied := h.size
      upperBound := upperBoundOf maxLoadFactor n
      flags := state.newFlags
      keys := if h.nBuckets > n then state.keys.realloc n else state.keys
      vals := if h.nBuckets > n then state.vals.realloc n else state.vals }

/-- The size that `kh_put` requests of a table at its bound. -/
def requested (h : Table K V) : Nat :=
  if h.nBuckets > (h.size <<< 1) % 2 ^ 32 then khintPred h.nBuckets else khintSucc h.nBuckets

/-- The beginning of `kh_put`. -/
def makeRoom (fuel : Nat) (h : Table K V) : Exec (Table K V) :=
  if h.nOccupied ≥ h.upperBound then khResize maxLoadFactor bp fuel h (requested h) else pure h

/-- The middle of `kh_put`, which decides on the bucket of a key. -/
def locate (fuel : Nat) (h : Table K V) (key : K) : Exec Nat := do
  let first ← check (h.flags.read .flags (probeSeq bp h key 0))
  if first.isempty then return probeSeq bp h key 0
  else
    let (i, isBack, site) ←
      probeFor bp (noteLast fun p => (h.flags.cell p).isdel) h.nBuckets fuel h key
    let x := if isBack then site else h.nBuckets
    if x = h.nBuckets then
      let flag ← check (h.flags.read .flags i)
      return if flag.isempty && site ≠ h.nBuckets then site else i
    else return x

/-- The end of `kh_put`: the table, and what is written to `*ret`. -/
def store (h : Table K V) (key : K) (x : Nat) : Except Fault (Table K V × Nat) := do
  let flag ← h.flags.read .flags x
  if flag.isempty then
    let keys ← h.keys.write .keys x key
    let flags ← h.flags.write .flags x Flag.setIsbothFalse
    return ({ h with keys, flags, size := khintSucc h.size, nOccupied := khintSucc h.nOccupied }, 1)
  else if flag.isdel then
    let keys ← h.keys.write .keys x key
    let flags ← h.flags.write .flags x Flag.setIsbothFalse
    return ({ h with keys, flags, size := khintSucc h.size }, 2)
  else return (h, 0)

/-- `kh_put`. It returns the table, the bucket, and what is written to `*ret`. -/
def khPut (fuel : Nat) (h : Table K V) (key : K) : Exec (Table K V × Nat × Nat) := do
  let h ← makeRoom maxLoadFactor bp fuel h
  let x ← locate bp fuel h key
  let (h, ret) ← check (store h key x)
  return (h, x, ret)

def khDel (h : Table K V) (x : Nat) : Except Fault (Table K V) := do
  if x ≠ h.nBuckets then
    let flag ← h.flags.read .flags x
    if !flag.iseither then
      let flags ← h.flags.write .flags x flag.setIsdelTrue
      return { h with flags, size := khintPred h.size }
    else return h
  else return h

/-- `kh_exist`. -/
def khExist (h : Table K V) (x : Nat) : Bool := !(h.flags.cell x).iseither

namespace Shim

def find (fuel : Nat) (table : Table K V) (key : K) : Exec Nat := khGet bp fuel table key

def insert (fuel : Nat) (table : Table K V) (key : K) : Exec (Table K V) := do
  let (table, itr, _) ← khPut maxLoadFactor bp fuel table key
  let vals ← check (table.vals.write .vals itr bp.valueType)
  return { table with vals }

def erase (fuel : Nat) (table : Table K V) (key : K) : Exec (Table K V) := do
  let itr ← khGet bp fuel table key
  if itr ≠ table.nBuckets then check (khDel table itr) else return table

/-- `kh_begin`. -/
def beginItr (_ : Table K V) : Nat := 0

def isItrValid (table : Table K V) (itr : Nat) : Bool := decide (itr ≠ table.nBuckets)

def incrementItr (table : Table K V) (itr : Nat) : Nat :=
  skip (khExist table) table.nBuckets (itr + 1)

def getKeyFromItr (table : Table K V) (itr : Nat) : K := table.keys.cell itr

def call (fuel : Nat) (table : Table K V) : Op K → Exec (Table K V)
  | .insert key => insert maxLoadFactor bp fuel table key
  | .erase key => erase bp fuel table key

/-- The table after these calls on a fresh one. -/
def run (fuel : Nat) (ops : List (Op K)) : Exec (Table K V) :=
  ops.foldlM (call maxLoadFactor bp fuel) (init memory)

end Shim

end Model

end HashBench.Khash
