import HashBench.Blueprint
import HashBench.Library.Iteration
import HashBench.StbDs.Index

/-! The stb_ds hash map behind the `stb_ds_hm_sh` shim: a dense array of
key-value pairs with a hash index on the side. A loop that is given too little
fuel, or that never ends, returns `none`. -/
namespace HashBench.StbDs

open Search OpenAddressing Iteration

/-- `STBDS_HM_BINARY` and `STBDS_HM_STRING`. -/
inductive Mode where
  | binary
  | string
  deriving DecidableEq, Repr

/-- How keys are read: the bytes or the string that a key stands for, which
`memcmp` or `strcmp` compares, and their hash under a seed. -/
structure KeyAccess (K β : Type*) where
  mode : Mode
  content : K → β
  hash : β → Nat → Nat

/-- The structure that the shim declares for the pairs of the array. -/
structure Element (K V : Type*) where
  key : K
  value : V

/-- A dense array with its header. The default element in front of the pairs
is counted in `length`; `data i` is the pair that the macros call `t[i]`. -/
structure DenseArray (K V : Type*) where
  data : Nat → Element K V
  length : Nat
  hashTable : Option HashIndex
  temp : Int

/-- The pointer that the shim keeps, which may be null. -/
abbrev Table (K V : Type*) := Option (DenseArray K V)

/-- `stbds_hmlen`. -/
def stbdsHmlen {K V : Type*} : Table K V → Int
  | none => 0
  | some a => (a.length : Int) - 1

/-- The calls of the shim that a run is made of. -/
inductive Call (K : Type*) where
  | insert (key : K)
  | erase (key : K)
  | find (key : K)
  deriving DecidableEq, Repr

/-- The change of the stored keys that a call asks for. -/
def Call.op? {K : Type*} : Call K → Option (Op K)
  | insert key => some (.insert key)
  | erase key => some (.erase key)
  | find _ => none

section Model

variable {K V β : Type*} [DecidableEq β]

/- How keys are read, the value that every insertion stores, what unwritten
memory contains, and the global seed. -/
variable (keys : KeyAccess K β) (value : V) (fresh : Nat → Element K V) (hashSeed : Nat)

/-- `stbds_arrgrowf` on a null array, with the default element added. -/
def newArray : DenseArray K V where
  data := fresh
  length := 1
  hashTable := none
  temp := 0

/-- `stbds_is_key_equal`. -/
def stbdsIsKeyEqual (data : Nat → Element K V) (key : K) (i : Int) : Bool :=
  decide (keys.content key = keys.content (data i.toNat).key)

/-- The hash that is stored for a key. -/
def hashFor (seed : Nat) (key : K) : StoredHash := storedHash (keys.hash (keys.content key) seed)

/-- Where a probe for `key` stops: at its slot or at an empty one. -/
def slotStops (data : Nat → Element K V) (table : HashIndex) (key : K) (slot : Nat) : Bool :=
  if slotHash (table.storage slot) = hashFor keys table.seed key then
    stbdsIsKeyEqual keys data key (slotIndex (table.storage slot))
  else slotHash (table.storage slot) == 0

/-- What `stbds_hmput_key` notes as a tombstone. -/
def isTombstone (table : HashIndex) (key : K) (slot : Nat) : Bool :=
  slotHash (table.storage slot) != hashFor keys table.seed key &&
    slotIndex (table.storage slot) == -2

/-- `stbds_hm_find_slot`. -/
def stbdsHmFindSlot (fuel : Nat) (data : Nat → Element K V) (table : HashIndex) (key : K) :
    Option Int :=
  let hash := hashFor keys table.seed key
  (probeLoop (slotStops keys data table key) (fun _ acc => acc) table.slotCount fuel
    (stbdsProbePosition hash table.slotCount) bucketLength ()).map fun found =>
      if slotHash (table.storage found.1) = hash then (found.1 : Int) else -1

/-- `stbds_hmget_key`. -/
def stbdsHmgetKey (fuel : Nat) (t : Table K V) (key : K) : Option (DenseArray K V) :=
  match t with
  | none => some { newArray fresh with temp := -1 }
  | some a =>
      match a.hashTable with
      | none => some { a with temp := -1 }
      | some table =>
          (stbdsHmFindSlot keys fuel a.data table key).map fun (slot : Int) =>
            { a with temp := if slot < 0 then -1 else slotIndex (table.storage slot.toNat) }

/-- The index that `stbds_hmput_key` probes: made on first use, grown when full. -/
def indexForPut (fuel : Nat) (a : DenseArray K V) : Option HashIndex :=
  match a.hashTable with
  | none => stbdsMakeHashIndex hashSeed fuel bucketLength none
  | some table =>
      if table.usedCount ≥ table.usedCountThreshold then
        stbdsMakeHashIndex hashSeed fuel (table.slotCount * 2) (some table)
      else some table

/-- `found_empty_slot`: use the noted tombstone or else the empty slot. -/
def claimSlot (table : HashIndex) (ref : Ref) (slot : Nat) (tombstone : Option Nat) : HashIndex :=
  match tombstone with
  | some pos =>
      { table with
        tombstoneCount := table.tombstoneCount - 1
        usedCount := table.usedCount + 1
        storage := Function.update table.storage pos (.live ref) }
  | none =>
      { table with
        usedCount := table.usedCount + 1
        storage := Function.update table.storage slot (.live ref) }

/-- `stbds_hmput_key`. -/
def stbdsHmputKey (fuel : Nat) (t : Table K V) (key : K) : Option (DenseArray K V) :=
  let a := t.getD (newArray fresh)
  (indexForPut hashSeed fuel a).bind fun table =>
    let hash := hashFor keys table.seed key
    (probeLoop (slotStops keys a.data table key) (noteFirst (isTombstone keys table key))
      table.slotCount fuel (stbdsProbePosition hash table.slotCount) bucketLength none).map
        fun (slot, tombstone) =>
          if slotHash (table.storage slot) = hash then
            { a with hashTable := some table, temp := slotIndex (table.storage slot) }
          else
            let i := a.length
            { data := Function.update a.data (i - 1) { a.data (i - 1) with key := key }
              length := i + 1
              hashTable := some (claimSlot table ⟨hash, i - 1⟩ slot tombstone)
              temp := (i : Int) - 1 }

/-- What the macros `stbds_hmput` and `stbds_shput` write to `t[temp]`. -/
def putElement (key : K) (old : Element K V) : Element K V :=
  match keys.mode with
  | .binary => { key := key, value := value }
  | .string => { old with value := value }

/-- Mark the slot of an erased key. -/
def burySlot (table : HashIndex) (slot : Nat) : HashIndex :=
  { table with
    usedCount := table.usedCount - 1
    tombstoneCount := table.tombstoneCount + 1
    storage := Function.update table.storage slot .deleted }

/-- `b->index[i] = index`. -/
def redirectSlot (table : HashIndex) (slot index : Nat) : HashIndex :=
  match table.storage slot with
  | .live ref =>
      { table with
        storage := Function.update table.storage slot (.live { ref with index := index }) }
  | _ => table

/-- Move the last pair into the hole and redirect its slot. -/
def fillHole (fuel : Nat) (data : Nat → Element K V) (table : HashIndex)
    (oldIndex finalIndex : Nat) : Option ((Nat → Element K V) × HashIndex) :=
  if oldIndex ≠ finalIndex then
    let data := Function.update data oldIndex (data finalIndex)
    (stbdsHmFindSlot keys fuel data table (data oldIndex).key).map fun slot =>
      (data, redirectSlot table slot.toNat oldIndex)
  else some (data, table)

/-- The index after an erasure: shrunk, rid of its tombstones, or kept. -/
def indexAfterDel (fuel : Nat) (table : HashIndex) : Option HashIndex :=
  if table.usedCount < table.usedCountShrinkThreshold ∧ table.slotCount > bucketLength then
    stbdsMakeHashIndex hashSeed fuel (table.slotCount >>> 1) (some table)
  else if table.tombstoneCount > table.tombstoneCountThreshold then
    stbdsMakeHashIndex hashSeed fuel table.slotCount (some table)
  else some table

/-- `stbds_hmdel_key`. -/
def stbdsHmdelKey (fuel : Nat) (t : Table K V) (key : K) : Option (Table K V) :=
  match t with
  | none => some none
  | some a =>
      match a.hashTable with
      | none => some (some { a with temp := 0 })
      | some table =>
          (stbdsHmFindSlot keys fuel a.data table key).bind fun slot =>
            if slot < 0 then some (some { a with temp := 0 })
            else
              let oldIndex := (slotIndex (table.storage slot.toNat)).toNat
              let finalIndex := a.length - 1 - 1
              (fillHole keys fuel a.data (burySlot table slot.toNat) oldIndex finalIndex).bind
                fun (data, table) =>
                  (indexAfterDel hashSeed fuel table).map fun table =>
                    some { data := data, length := a.length - 1, hashTable := some table, temp := 1 }

namespace StbDsHmSh

def createTable : Table K V := none

def find (fuel : Nat) (table : Table K V) (key : K) : Option (Table K V × Int) :=
  (stbdsHmgetKey keys fresh fuel table key).map fun a => (some a, a.temp)

def insert (fuel : Nat) (table : Table K V) (key : K) : Option (Table K V) :=
  (stbdsHmputKey keys fresh hashSeed fuel table key).map fun a =>
    some { a with
      data := Function.update a.data a.temp.toNat
        (putElement keys value key (a.data a.temp.toNat)) }

def erase (fuel : Nat) (table : Table K V) (key : K) : Option (Table K V) :=
  stbdsHmdelKey keys hashSeed fuel table key

def beginItr : Int := 0

def isItrValid (table : Table K V) (itr : Int) : Bool :=
  decide (itr ≠ -1) && decide (itr < stbdsHmlen table)

def incrementItr (itr : Int) : Int := itr + 1

/-- `table[itr].key`; a null table has none. -/
def getKeyFromItr (table : Table K V) (itr : Int) : Option K :=
  table.map fun a => (a.data itr.toNat).key

def call (fuel : Nat) (table : Table K V) : Call K → Option (Table K V)
  | .insert key => insert keys value fresh hashSeed fuel table key
  | .erase key => erase keys hashSeed fuel table key
  | .find key => (find keys fresh fuel table key).map Prod.fst

/-- The table after these calls on a null one, if every loop ends. -/
def run (fuel : Nat) (calls : List (Call K)) : Option (Table K V) :=
  calls.foldlM (call keys value fresh hashSeed fuel) createTable

end StbDsHmSh

end Model

end HashBench.StbDs
