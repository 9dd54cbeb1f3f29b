import HashBench.Library.Search
import HashBench.Library.Triangular
import HashBench.Library.Iteration
import HashBench.Blueprint
import Mathlib.Data.Rat.Floor

/-! The open-addressing dictionary of M*LIB and the mlib_dict_oa shim. The pairs
lie in the slots themselves, and two reserved keys mark the empty and the
deleted ones. -/
namespace HashBench.MlibDictOa

open Search Triangular Iteration

/-- `OOR_EQUAL` and `OOR_SET`: the reserved key of each number. -/
structure Oor (K : Type) where
  oorEqual : K → Nat → Bool
  oorSet : Nat → K

/-- `M_D1CT_OA_EMPTY`. -/
def oaEmpty : Nat := 0

/-- `M_D1CT_OA_DELETED`. -/
def oaDeleted : Nat := 1

structure Pair (K V : Type) where
  key : K
  value : V

structure Dict (K V : Type) where
  mask : Nat
  count : Nat
  countDelete : Nat
  upperLimit : Nat
  lowerLimit : Nat
  data : Nat → Pair K V

/-- Where the pairs lie in memory. -/
structure Layout where
  data : Nat
  sizeofPair : Nat
  offsetofValue : Nat
  sizeofPair_pos : 0 < sizeofPair

/-- The library's fatal error ends the program. -/
inductive Fault where
  | memoryFull
  deriving DecidableEq, Repr

/-- A computation that may run out of fuel or end in a fault. -/
abbrev Exec := ExceptT Fault Option

/-- `M_D1CT_INITIAL_SIZE`. -/
def initialSize : Nat := 16

/-- `n - 1` on a `size_t`. -/
def sizePred (n : Nat) : Nat := if n = 0 then 2 ^ 64 - 1 else n - 1

/-- `n + 1` on a `size_t`. -/
def sizeSucc (n : Nat) : Nat := (n + 1) % 2 ^ 64

/-- `(size_t) ((double) size * coeff_up) - 1`. -/
def upperLimitOf (maxLoadFactor : ℚ) (size : Nat) : Nat :=
  sizePred (⌊(size : ℚ) * maxLoadFactor⌋₊ % 2 ^ 64)

/-- The lower limit, for the lower bound 0.2. -/
def lowerLimitOf (size : Nat) : Nat := if size ≤ initialSize then 0 else size / 5

section Model

variable {K V : Type} (maxLoadFactor : ℚ) (memory : Nat → Pair K V) (oor : Oor K)
  (bp : Blueprint K V)

def updateLimit (dict : Dict K V) (size : Nat) : Dict K V :=
  { dict with upperLimit := upperLimitOf maxLoadFactor size, lowerLimit := lowerLimitOf size }

/-- `OOR_SET` on the key of a slot. The value stays. -/
def mark (n : Nat) (pair : Pair K V) : Pair K V := { pair with key := oor.oorSet n }

/-- `_init`. The values are what the memory held. -/
def init : Dict K V where
  mask := initialSize - 1
  count := 0
  countDelete := 0
  upperLimit := upperLimitOf maxLoadFactor initialSize
  lowerLimit := lowerLimitOf initialSize
  data := fun p => mark oor oaEmpty (memory p)

/-- The slots at which a probe loop ends. -/
def stops (dict : Dict K V) (key : K) (p : Nat) : Bool :=
  bp.cmprKeys (dict.data p).key key || oor.oorEqual (dict.data p).key oaEmpty

/-- The probe for a key, up to the first slot that ends it. -/
def probeFor {σ : Type} (update : Nat → σ → σ) (acc : σ) (fuel : Nat) (dict : Dict K V) (key : K) :
    Option (Nat × σ) :=
  search (stops oor bp dict key) update (probe dict.mask (bp.hashKey key)) fuel 0 acc

/-- `&data[p].value`. -/
def valueAddress (layout : Layout) (p : Nat) : Nat :=
  layout.data + p * layout.sizeofPair + layout.offsetofValue

/-- `_get`. -/
def get (layout : Layout) (fuel : Nat) (dict : Dict K V) (key : K) : Exec (Option Nat) := do
  let (j, _) ← lift (probeFor oor bp (fun _ acc => acc) () fuel dict key)
  let p := probe dict.mask (bp.hashKey key) j
  if bp.cmprKeys (dict.data p).key key then return some (valueAddress layout p) else return none

/-- Whether a slot holds a pair. -/
def isUsed (data : Nat → Pair K V) (p : Nat) : Bool :=
  !oor.oorEqual (data p).key oaEmpty && !oor.oorEqual (data p).key oaDeleted

/-- The body of a sweep for a slot with a pair: unless the pair lies at its exact
position it is moved there, if that is free, or else set aside. -/
def moveHome (mask i : Nat) (state : (Nat → Pair K V) × List (Pair K V)) :
    (Nat → Pair K V) × List (Pair K V) :=
  let (data, tmp) := state
  let p := bp.hashKey (data i).key &&& mask
  if p ≠ i then
    if oor.oorEqual (data p).key oaEmpty || oor.oorEqual (data p).key oaDeleted then
      (Function.update (Function.update data p (data i)) i (mark oor oaEmpty (data i)), tmp)
    else (Function.update data i (mark oor oaEmpty (data i)), data i :: tmp)
  else (data, tmp)

/-- The body of the sweep of `_resize_up`. -/
def sweepUpAt (mask i : Nat) (state : (Nat → Pair K V) × List (Pair K V)) :
    (Nat → Pair K V) × List (Pair K V) :=
  if !oor.oorEqual (state.1 i).key oaDeleted && !oor.oorEqual (state.1 i).key oaEmpty then
    moveHome oor bp mask i state
  else (Function.update state.1 i (mark oor oaEmpty (state.1 i)), state.2)

/-- The body of the first pass of `_resize_down`. -/
def sweepDownAt (mask i : Nat) (state : (Nat → Pair K V) × List (Pair K V)) :
    (Nat → Pair K V) × List (Pair K V) :=
  if oor.oorEqual (state.1 i).key oaEmpty then state
  else if oor.oorEqual (state.1 i).key oaDeleted then
    (Function.update state.1 i (mark oor oaEmpty (state.1 i)), state.2)
  else moveHome oor bp mask i state

/-- The sweep of the first `count` slots. -/
def sweepSlots (body : Nat → (Nat → Pair K V) × List (Pair K V) →
    (Nat → Pair K V) × List (Pair K V)) (data : Nat → Pair K V) :
    Nat → (Nat → Pair K V) × List (Pair K V)
  | 0 => (data, [])
  | count + 1 => body count (sweepSlots body data count)

/-- The loop that puts a pair into the first empty slot of its probe. -/
def putBack (mask fuel : Nat) (pair : Pair K V) (data : Nat → Pair K V) :
    Option (Nat → Pair K V) :=
  let seq := probe mask (bp.hashKey pair.key)
  (search (fun p => oor.oorEqual (data p).key oaEmpty) (fun _ acc => acc) seq fuel 0 ()).map
    fun (j, _) => Function.update data (seq j) pair

/-- The loop over the pairs set aside, the last one first. -/
def putBackAll (mask fuel : Nat) : List (Pair K V) → (Nat → Pair K V) → Option (Nat → Pair K V)
  | [], data => some data
  | pair :: tmp, data => (putBack oor bp mask fuel pair data).bind (putBackAll mask fuel tmp)

/-- The second pass of `_resize_down`, over the upper slots. -/
def moveUpper (mask fuel : Nat) : List Nat → (Nat → Pair K V) → Option (Nat → Pair K V)
  | [], data => some data
  | i :: rest, data =>
      if isUsed oor data i then
        (putBack oor bp mask fuel (data i) data).bind (moveUpper mask fuel rest)
      else moveUpper mask fuel rest data

/-- The loop that marks the extended space as empty. -/
def markEmpty (data : Nat → Pair K V) (oldSize newSize : Nat) (p : Nat) : Pair K V :=
  if oldSize ≤ p ∧ p < newSize then mark oor oaEmpty (data p) else data p

def resizeUp (fuel : Nat) (h : Dict K V) (newSize : Nat) : Option (Dict K V) := do
  let oldSize := h.mask + 1
  let data := if newSize > oldSize then markEmpty oor h.data oldSize newSize else h.data
  let (data, tmp) := sweepSlots (sweepUpAt oor bp (newSize - 1)) data oldSize
  let data ← putBackAll oor bp (newSize - 1) fuel tmp data
  return updateLimit maxLoadFactor { h with mask := newSize - 1, countDelete := h.count, data } newSize

def resizeDown (fuel : Nat) (h : Dict K V) (newSize : Nat) : Option (Dict K V) := do
  let oldSize := h.mask + 1
  let newSize := if newSize < initialSize then initialSize else newSize
  let (data, tmp) := sweepSlots (sweepDownAt oor bp (newSize - 1)) h.data newSize
  let data ← moveUpper oor bp (newSize - 1) fuel (List.range' newSize (oldSize - newSize)) data
  let data ← putBackAll oor bp (newSize - 1) fuel tmp data
  let h := { h with countDelete := h.count, data }
  if newSize ≠ oldSize then
    return updateLimit maxLoadFactor { h with mask := newSize - 1 } newSize
  else return h

/-- The end of `_set_at` for a key that is not in the dictionary, which goes to
the deleted slot noted or else to the empty slot `p`. -/
def storeAt (dict : Dict K V) (key : K) (value : V) (p : Nat) (delPos : Option Nat) : Dict K V :=
  let countDelete := if delPos = none then dict.countDelete else sizePred dict.countDelete
  { dict with
    data := Function.update dict.data (delPos.getD p) ⟨key, value⟩
    count := sizeSucc dict.count
    countDelete := sizeSucc countDelete }

/-- The end of `_set_at` that rebuilds the table when too few slots are empty. -/
def checkLimit (fuel : Nat) (dict : Dict K V) : Exec (Dict K V) :=
  if dict.countDelete ≥ dict.upperLimit then
    if dict.count > dict.mask / 2 then
      let newSize := (dict.mask + 1 + (dict.mask + 1)) % 2 ^ 64
      if newSize ≤ dict.mask + 1 then throw .memoryFull
      else lift (resizeUp maxLoadFactor oor bp fuel dict newSize)
    else lift (resizeUp maxLoadFactor oor bp fuel dict (dict.mask + 1))
  else pure dict

def setAt (fuel : Nat) (dict : Dict K V) (key : K) (value : V) : Exec (Dict K V) := do
  let isDeleted p := oor.oorEqual (dict.data p).key oaDeleted
  let (j, delPos) ← lift (probeFor oor bp (noteFirst isDeleted) none fuel dict key)
  let p := probe dict.mask (bp.hashKey key) j
  if bp.cmprKeys (dict.data p).key key then
    return { dict with data := Function.update dict.data p { dict.data p with value } }
  else checkLimit maxLoadFactor oor bp fuel (storeAt dict key value p delPos)

/-- The end of `_erase`, for the slot of the key. -/
def removeAt (fuel : Nat) (dict : Dict K V) (p : Nat) : Option (Dict K V) :=
  let dict :=
    { dict with
      data := Function.update dict.data p (mark oor oaDeleted (dict.data p))
      count := sizePred dict.count }
  if dict.count < dict.lowerLimit then
    resizeDown maxLoadFactor oor bp fuel dict ((dict.mask + 1) >>> 1)
  else some dict

/-- `_erase`. The first slot is compared with the key before it is tested for
emptiness, a later one after it. -/
def eraseKey (fuel : Nat) (dict : Dict K V) (key : K) : Exec (Dict K V) := do
  let (j, _) ← lift (probeFor oor bp (fun _ acc => acc) () fuel dict key)
  let p := probe dict.mask (bp.hashKey key) j
  if j = 0 then
    if bp.cmprKeys (dict.data p).key key then lift (removeAt maxLoadFactor oor bp fuel dict p)
    else return dict
  else
    if oor.oorEqual (dict.data p).key oaEmpty then return dict
    else lift (removeAt maxLoadFactor oor bp fuel dict p)

namespace Shim

/-- `find`, which turns the pointer to the value into the index of its slot. -/
def find (layout : Layout) (fuel : Nat) (dict : Dict K V) (key : K) : Exec Nat := do
  match ← get oor bp layout fuel dict key with
  | none => return dict.mask + 1
  | some value => return (value - layout.offsetofValue - layout.data) / layout.sizeofPair

def insert (fuel : Nat) (dict : Dict K V) (key : K) : Exec (Dict K V) :=
  setAt maxLoadFactor oor bp fuel dict key bp.valueType

def erase (fuel : Nat) (dict : Dict K V) (key : K) : Exec (Dict K V) :=
  eraseKey maxLoadFactor oor bp fuel dict key

def beginItr (dict : Dict K V) : Nat := skip (isUsed oor dict.data) (dict.mask + 1) 0

def isItrValid (dict : Dict K V) (itr : Nat) : Bool := !decide (itr > dict.mask)

def incrementItr (dict : Dict K V) (itr : Nat) : Nat :=
  skip (isUsed oor dict.data) (dict.mask + 1) (itr + 1)

def getKeyFromItr (dict : Dict K V) (itr : Nat) : K := (dict.data itr).key

def call (fuel : Nat) (dict : Dict K V) : Op K → Exec (Dict K V)
  | .insert key => insert maxLoadFactor oor bp fuel dict key
  | .erase key => erase maxLoadFactor oor bp fuel dict key

/-- The dictionary after these calls on a fresh one. -/
def run (fuel : Nat) (ops : List (Op K)) : Exec (Dict K V) :=
  ops.foldlM (call maxLoadFactor oor bp fuel) (init maxLoadFactor memory oor)

end Shim

end Model

end HashBench.MlibDictOa
