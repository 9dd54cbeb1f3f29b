import HashBench.Library.Search
import HashBench.Library.Triangular
import HashBench.Library.Buffer
import HashBench.Library.Iteration
import HashBench.Blueprint
import Mathlib.Data.Rat.Floor

/-! The dictionary of M*LIB and the mlib_dict shim. The index is an
open-addressing table of hashes and entry numbers, the entries lie in a dense
array whose unused ones form a list. Every access to the two arrays is checked
against the number of cells last allocated; a failed check is a fault, as is
reading the wrong member of an entry and the library's fatal error. -/
namespace HashBench.MlibDict

open Search Triangular Iteration Memory

inductive Fault where
  | indexBounds
  | dataBounds
  | wrongMember
  | memoryFull
  deriving DecidableEq, Repr

/-- A computation that may run out of fuel or end in a fault. -/
abbrev Exec := ExceptT Fault Option

/-- `m_indexhash_t`. -/
structure IndexHash where
  index : Nat
  hash : Nat
  deriving DecidableEq, Repr

/-- An entry: the next one of the freelist, or a pair. -/
inductive Freelist (K V : Type) where
  | freelist (next : Nat)
  | pair (key : K) (value : V)

structure Dict (K V : Type) where
  count : Nat
  countDelete : Nat
  upperLimit : Nat
  lowerLimit : Nat
  mask : Nat
  freelistFirstData : Nat
  freelistCount : Nat
  index : Buffer IndexHash
  data : Buffer (Freelist K V)

variable {K V : Type}

/-- `M_D1CT_INITIAL_SIZE`. -/
def initialSize : Nat := 16

/-- `n - 1` on an `m_index_t`. -/
def indexPred (n : Nat) : Nat := if n = 0 then 2 ^ 32 - 1 else n - 1

/-- `(m_index_t) ((double) size * M_D1CT_OA_UPPER_BOUND) - 1`. -/
def upperLimitOf (maxLoadFactor : ℚ) (size : Nat) : Nat :=
  indexPred (⌊(size : ℚ) * maxLoadFactor⌋₊ % 2 ^ 32)

/-- The lower limit, for the lower bound 0.2. -/
def lowerLimitOf (size : Nat) : Nat := if size ≤ initialSize then 0 else size / 5

section Model

variable (maxLoadFactor : ℚ) (memory : Nat → Freelist K V) (bp : Blueprint K V)

def updateLimit (map : Dict K V) (size : Nat) : Dict K V :=
  { map with upperLimit := upperLimitOf maxLoadFactor size, lowerLimit := lowerLimitOf size }

/-- `_init`. The entries hold what the memory held. -/
def init : Dict K V where
  count := 0
  countDelete := 0
  upperLimit := upperLimitOf maxLoadFactor initialSize
  lowerLimit := lowerLimitOf initialSize
  mask := initialSize - 1
  freelistFirstData := 0
  freelistCount := 2
  index := ⟨initialSize, fun _ => ⟨0, 0⟩⟩
  data := ⟨1 + 2 + upperLimitOf maxLoadFactor initialSize, memory⟩

/-- `(m_index_t) hash_key(key)`. -/
def hashOf (key : K) : Nat := bp.hashKey key % 2 ^ 32

def getFreeBucket (map : Dict K V) : Except Fault (Nat × Dict K V) :=
  if map.freelistFirstData ≠ 0 then do
    match ← map.data.read .dataBounds map.freelistFirstData with
    | .freelist next => .ok (map.freelistFirstData, { map with freelistFirstData := next })
    | .pair _ _ => .error .wrongMember
  else .ok (map.freelistCount, { map with freelistCount := map.freelistCount + 1 })

def releaseBucket (map : Dict K V) (d : Nat) : Except Fault (Dict K V) := do
  let data ← map.data.write .dataBounds d (.freelist map.freelistFirstData)
  return { map with data, freelistFirstData := d }

/-- `map->data[d].pair`. -/
def readPair (map : Dict K V) (d : Nat) : Except Fault (K × V) := do
  match ← map.data.read .dataBounds d with
  | .pair key value => .ok (key, value)
  | .freelist _ => .error .wrongMember

/-- What the body of a probe loop decides about a slot. -/
inductive Verdict where
  | found
  | empty
  | next
  deriving DecidableEq, Repr

/-- One round of a probe loop. An index of 2 or more is not that of an empty
slot. -/
def inspect (map : Dict K V) (key : K) (p : Nat) : Except Fault Verdict := do
  let slot ← map.index.read .indexBounds p
  if hashOf bp key = slot.hash ∧ 2 ≤ slot.index then
    let pair ← readPair map slot.index
    return if bp.cmprKeys pair.1 key then .found else .next
  else return if slot.index = 0 then .empty else .next

/-- The loop goes on past a slot unless it decides, or faults, there. -/
def stops (map : Dict K V) (key : K) (p : Nat) : Bool :=
  match inspect bp map key p with
  | .ok .next => false
  | _ => true

/-- A probe loop, which returns the slot it ends at. -/
def probeFor {σ : Type} (update : Nat → σ → σ) (acc : σ) (fuel : Nat) (map : Dict K V)
    (key : K) : Exec (Nat × Verdict × σ) :=
  ExceptT.mk <| (search (stops bp map key) update (probe map.mask (hashOf bp key)) fuel 0 acc).map
    fun (j, acc) => do
      let p := probe map.mask (hashOf bp key) j
      let verdict ← inspect bp map key p
      return (p, verdict, acc)

/-- `_get`. The value it points at is that of this entry. -/
def get (fuel : Nat) (map : Dict K V) (key : K) : Exec (Option Nat) := do
  let (p, verdict, _) ← probeFor bp (fun _ acc => acc) () fuel map key
  if verdict = .found then return some (map.index.cell p).index else return none

/-- The body of the sweep of a resize: a slot is emptied, and its entry moved
to its exact position if that is free. -/
def sweepAt (mask i : Nat) (state : Buffer IndexHash × List IndexHash) :
    Except Fault (Buffer IndexHash × List IndexHash) := do
  let slot ← state.1.read .indexBounds i
  let index ← state.1.write .indexBounds i { slot with index := 0 }
  if 2 ≤ slot.index then
    let home ← index.read .indexBounds (slot.hash &&& mask)
    if home.index ≤ 1 then
      let index ← index.write .indexBounds (slot.hash &&& mask) slot
      return (index, state.2)
    else return (index, slot :: state.2)
  else return (index, state.2)

/-- The sweep of the first `count` slots. -/
def sweepSlots (mask : Nat) (index : Buffer IndexHash) :
    Nat → Except Fault (Buffer IndexHash × List IndexHash)
  | 0 => .ok (index, [])
  | count + 1 => do
      let state ← sweepSlots mask index count
      sweepAt mask count state

/-- The loop that puts an entry into the first empty slot of its probe. -/
def putBack (mask fuel : Nat) (slot : IndexHash) (index : Buffer IndexHash) :
    Exec (Buffer IndexHash) :=
  let stop p :=
    match index.read Fault.indexBounds p with
    | .ok at_ => at_.index == 0
    | .error _ => true
  ExceptT.mk <| (search stop (fun _ acc => acc) (probe mask slot.hash) fuel 0 ()).map
    fun (j, _) => index.write .indexBounds (probe mask slot.hash j) slot

/-- The loop over the entries set aside, the last one first. -/
def putBackAll (mask fuel : Nat) : List IndexHash → Buffer IndexHash → Exec (Buffer IndexHash)
  | [], index => pure index
  | slot :: tmp, index => do
      let index ← putBack mask fuel slot index
      putBackAll mask fuel tmp index

/-- The loop over the upper slots of an index that shrinks. -/
def moveUpper (mask fuel : Nat) : List Nat → Buffer IndexHash → Exec (Buffer IndexHash)
  | [], index => pure index
  | i :: rest, index => do
      let slot ← check (index.read .indexBounds i)
      if 2 ≤ slot.index then
        let index ← putBack mask fuel slot index
        moveUpper mask fuel rest index
      else moveUpper mask fuel rest index

/-- The loop that marks the extended space as empty. -/
def markEmpty (index : Buffer IndexHash) (oldSize newSize : Nat) : Buffer IndexHash :=
  { index with cell := fun p => if oldSize ≤ p ∧ p < newSize then ⟨0, 0⟩ else index.cell p }

/-- The arrays of a dictionary that grows. The entries are reallocated unless
as many have been in use before. -/
def extend (h : Dict K V) (newSize : Nat) : Dict K V :=
  let data :=
    if (1 + 2 + h.upperLimit) % 2 ^ 32 > h.freelistCount then h.data.realloc (1 + 2 + h.upperLimit)
    else h.data
  { h with data, index := markEmpty (h.index.realloc newSize) (h.mask + 1) newSize }

/-- The first part of `_resize_up`, up to the sweep. -/
def enlarge (h : Dict K V) (newSize : Nat) : Dict K V :=
  let oldSize := h.mask + 1
  let h := updateLimit maxLoadFactor h newSize
  if newSize > oldSize then extend h newSize else h

def resizeUp (fuel : Nat) (h : Dict K V) (newSize : Nat) : Exec (Dict K V) := do
  let oldSize := h.mask + 1
  let h := enlarge maxLoadFactor h newSize
  let (index, tmp) ← check (sweepSlots (newSize - 1) h.index oldSize)
  let index ← putBackAll (newSize - 1) fuel tmp index
  return { h with index, mask := newSize - 1, countDelete := h.count }

def resizeDown (fuel : Nat) (h : Dict K V) (newSize : Nat) : Exec (Dict K V) := do
  let oldSize := h.mask + 1
  let newSize := if newSize < initialSize then initialSize else newSize
  let (index, tmp) ← check (sweepSlots (newSize - 1) h.index newSize)
  let index ← moveUpper (newSize - 1) fuel (List.range' newSize (oldSize - newSize)) index
  let index ← putBackAll (newSize - 1) fuel tmp index
  let h := { h with index, countDelete := h.count }
  if newSize ≠ oldSize then
    let h := updateLimit maxLoadFactor { h with mask := newSize - 1 } newSize
    return { h with index := h.index.realloc newSize }
  else return h

/-- The end of `_set_at` for a key that is not in the dictionary, which goes to
the deleted slot noted or else to the empty slot `p`. -/
def storeAt (map : Dict K V) (key : K) (value : V) (p : Nat) (delPos : Option Nat) :
    Except Fault (Dict K V) := do
  let countDelete := if delPos = none then map.countDelete else map.countDelete - 1
  let (d, map) ← getFreeBucket map
  let data ← map.data.write .dataBounds d (.pair key value)
  let index ← map.index.write .indexBounds (delPos.getD p) ⟨d, hashOf bp key⟩
  return { map with data, index, count := map.count + 1, countDelete := countDelete + 1 }

/-- The end of `_set_at` that rebuilds the index when too few slots are empty. -/
def checkLimit (fuel : Nat) (map : Dict K V) : Exec (Dict K V) :=
  if map.countDelete ≥ map.upperLimit then
    if map.count > (map.mask + 1) / 2 then
      let newSize := (map.mask + 1 + (map.mask + 1)) % 2 ^ 32
      if newSize ≤ map.mask + 1 then throw .memoryFull
      else resizeUp maxLoadFactor fuel map newSize
    else resizeUp maxLoadFactor fuel map (map.mask + 1)
  else pure map

def setAt (fuel : Nat) (map : Dict K V) (key : K) (value : V) : Exec (Dict K V) := do
  let isDeleted p := (map.index.cell p).index == 1
  let (p, verdict, delPos) ← probeFor bp (noteFirst isDeleted) none fuel map key
  if verdict = .found then
    let d := (map.index.cell p).index
    let pair ← check (readPair map d)
    let data ← check (map.data.write .dataBounds d (.pair pair.1 value))
    return { map with data }
  else
    let map ← check (storeAt bp map key value p delPos)
    checkLimit maxLoadFactor fuel map

/-- The part of `_erase` that takes the key of slot `p` out. -/
def removeAt (map : Dict K V) (p : Nat) : Except Fault (Dict K V) := do
  let slot ← map.index.read .indexBounds p
  let map ← releaseBucket map slot.index
  let index ← map.index.write .indexBounds p { slot with index := 1 }
  return { map with index, count := map.count - 1 }

def eraseKey (fuel : Nat) (map : Dict K V) (key : K) : Exec (Dict K V) := do
  let (p, verdict, _) ← probeFor bp (fun _ acc => acc) () fuel map key
  if verdict = .found then
    let map ← check (removeAt map p)
    if map.count < map.lowerLimit then resizeDown maxLoadFactor fuel map ((map.mask + 1) >>> 1)
    else return map
  else return map

/-- Whether an index slot is passed over by the iterators. -/
def isUsed (map : Dict K V) (i : Nat) : Bool := decide (1 < (map.index.cell i).index)

namespace Shim

/-- `_get_itr`, the lookup written for the shim. -/
def find (fuel : Nat) (map : Dict K V) (key : K) : Exec Nat := do
  let (p, verdict, _) ← probeFor bp (fun _ acc => acc) () fuel map key
  if verdict = .found then return p else return map.mask + 1

def insert (fuel : Nat) (map : Dict K V) (key : K) : Exec (Dict K V) :=
  setAt maxLoadFactor bp fuel map key bp.valueType

def erase (fuel : Nat) (map : Dict K V) (key : K) : Exec (Dict K V) :=
  eraseKey maxLoadFactor bp fuel map key

def beginItr (map : Dict K V) : Nat := skip (isUsed map) (map.mask + 1) 0

def isItrValid (map : Dict K V) (itr : Nat) : Bool := !decide (itr > map.mask)

def incrementItr (map : Dict K V) (itr : Nat) : Nat := skip (isUsed map) (map.mask + 1) (itr + 1)

/-- `_ref`: the entry whose pair the iterator points at. -/
def ref (map : Dict K V) (itr : Nat) : Nat := (map.index.cell itr).index

def getKeyFromItr (map : Dict K V) (itr : Nat) : Option K :=
  match map.data.cell (ref map itr) with
  | .pair key _ => some key
  | .freelist _ => none

def call (fuel : Nat) (map : Dict K V) : Op K → Exec (Dict K V)
  | .insert key => insert maxLoadFactor bp fuel map key
  | .erase key => erase maxLoadFactor bp fuel map key

/-- The dictionary after these calls on a fresh one. -/
def run (fuel : Nat) (ops : List (Op K)) : Exec (Dict K V) :=
  ops.foldlM (call maxLoadFactor bp fuel) (init maxLoadFactor memory)

end Shim

end Model

end HashBench.MlibDict
