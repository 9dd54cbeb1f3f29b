import HashBench.Blueprint
import HashBench.Library.Sentinels

/-! The key traits that the shims of `llvm::DenseMap` and `Excalibur::HashTable`
give to their tables. A stored key is a key of the user or one of two markers,
which for C strings are addresses that must not be read. -/
namespace HashBench.KeyTraits

open Sentinels

/-- A string is read at an address that is none of the user's keys. -/
inductive Fault where
  | noString
  deriving DecidableEq, Repr

/-- The functions of a blueprint, as they are called on values of `key_type`. -/
structure Calls (K : Type*) where
  hashKey : K → Except Fault Nat
  cmprKeys : K → K → Except Fault Bool

/-- Any value of an integer type can be hashed and compared. -/
def Calls.ofValues {K V : Type*} (bp : Blueprint K V) : Calls K where
  hashKey key := .ok (bp.hashKey key)
  cmprKeys key1 key2 := .ok (bp.cmprKeys key1 key2)

/-- `char *`. -/
abbrev Pointer := BitVec 64

/-- The strings in memory, by the addresses at which they start. -/
structure Strings where
  content : Pointer → Option (List UInt8)

namespace Strings

variable (strings : Strings) (markers : Markers Pointer)

/-- A pointer that the user may give as a key. -/
def IsUser (p : Pointer) : Prop :=
  p ≠ 0#64 ∧ (strings.content p).isSome = true ∧ markers.marks p = false

instance (p : Pointer) : Decidable (strings.IsUser markers p) :=
  inferInstanceAs (Decidable (_ ∧ _ ∧ _))

/-- The keys that the blueprint's functions are for. -/
abbrev User : Type := {p : Pointer // strings.IsUser markers p}

def deref (p : Pointer) : Except Fault (strings.User markers) :=
  if h : strings.IsUser markers p then .ok ⟨p, h⟩ else .error .noString

def calls {V : Type*} (bp : Blueprint (strings.User markers) V) : Calls Pointer where
  hashKey key := do
    let key ← strings.deref markers key
    pure (bp.hashKey key)
  cmprKeys key1 key2 := do
    let key1 ← strings.deref markers key1
    let key2 ← strings.deref markers key2
    pure (bp.cmprKeys key1 key2)

end Strings

/-! The markers of the `DenseMap` are those of `llvm::DenseMapInfo`, and an
`unsigned` has 32 bits. -/
namespace LlvmBlueprintDenseMapInfo

section CharPtr

variable (info : Markers Pointer) (blueprint : Calls Pointer)

def getHashValueCharPtr (val : Pointer) : Except Fault (BitVec 32) :=
  if val == info.empty || val == info.tombstone then .ok (val.setWidth 32)
  else do
    let hash ← blueprint.hashKey val
    pure (BitVec.ofNat 32 hash)

def isEqualCharPtr (lhs rhs : Pointer) : Except Fault Bool :=
  let lhsIsSpecial := lhs == info.empty || lhs == info.tombstone
  let rhsIsSpecial := rhs == info.empty || rhs == info.tombstone
  if lhsIsSpecial || rhsIsSpecial then .ok (lhs == rhs)
  else blueprint.cmprKeys lhs rhs

/-- The overload for `const char *`. -/
def getHashValueLookup (valLookup : Pointer) : Except Fault (BitVec 32) := do
  let hash ← blueprint.hashKey valLookup
  pure (BitVec.ofNat 32 hash)

/-- The overload for `const char *`. -/
def isEqualLookup (lhsLookup rhsStored : Pointer) : Except Fault Bool :=
  if rhsStored == info.empty || rhsStored == info.tombstone then .ok false
  else blueprint.cmprKeys lhsLookup rhsStored

end CharPtr

section Others

variable {K : Type*} [DecidableEq K] (info : Markers K) (blueprint : Calls K)

def getHashValue (val : K) : Except Fault (BitVec 32) := do
  let hash ← blueprint.hashKey val
  pure (BitVec.ofNat 32 hash)

def isEqual (lhs rhs : K) : Except Fault Bool :=
  if lhs = info.empty then .ok (rhs == info.empty)
  else if lhs = info.tombstone then .ok (rhs == info.tombstone)
  else if rhs = info.empty || rhs = info.tombstone then .ok false
  else blueprint.cmprKeys lhs rhs

end Others

end LlvmBlueprintDenseMapInfo

/-- `Excalibur::KeyInfo`, as far as the adapter uses it. -/
structure KeyInfo (K : Type*) extends Markers K where
  isValid : K → Bool

namespace KeyInfo

/-- The markers are the addresses of two static characters. -/
def charPtr (markers : Markers Pointer) : KeyInfo Pointer where
  toMarkers := markers
  isValid key := key != 0#64 && key != markers.empty && key != markers.tombstone

/-- The markers are the two largest values. -/
def int32 : KeyInfo (BitVec 32) where
  isValid key := key.slt 0x7ffffffe#32
  tombstone := 0x7fffffff#32
  empty := 0x7ffffffe#32
  distinct := by decide

def uint32 : KeyInfo (BitVec 32) where
  isValid key := key.ult 0xfffffffe#32
  tombstone := 0xfffffffe#32
  empty := 0xffffffff#32
  distinct := by decide

def int64 : KeyInfo (BitVec 64) where
  isValid key := key.slt 0x7ffffffffffffffe#64
  tombstone := 0x7fffffffffffffff#64
  empty := 0x7ffffffffffffffe#64
  distinct := by decide

def uint64 : KeyInfo (BitVec 64) where
  isValid key := key.ult 0xfffffffffffffffe#64
  tombstone := 0xfffffffffffffffe#64
  empty := 0xffffffffffffffff#64
  distinct := by decide

end KeyInfo

/-! `KeyInfo_Adapter`. -/
namespace KeyInfoAdapter

variable {K : Type*} [DecidableEq K] (info : KeyInfo K) (blueprint : Calls K)

def getTombstone : K := info.tombstone

def getEmpty : K := info.empty

def isValid (key : K) : Bool := info.isValid key

def hash (key : K) : Except Fault Nat := blueprint.hashKey key

def isEqual (lhs rhs : K) : Except Fault Bool :=
  if lhs = rhs then .ok true
  else if info.isValid lhs && info.isValid rhs then blueprint.cmprKeys lhs rhs
  else .ok false

end KeyInfoAdapter

end HashBench.KeyTraits
