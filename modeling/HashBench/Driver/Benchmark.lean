import HashBench.Shim
import Mathlib.Algebra.Group.Nat.Defs

/-! The benchmarking function of the driver. A program state holds the table,
the random number generator, and a record of the table at the moments the
clock is read and of the results that are assigned; reading a key or a result
outside its vector, drawing from an empty range, reading through an invalid
iterator, leaving by `exit` and the length of a vector that is no `int` are the
faults. The times, and the bytes added to `do_not_optimize`, are left out. -/
namespace HashBench.Driver

inductive BenchmarkId where
  | insertNonexisting
  | reinsertAfterErasure
  | eraseExisting
  | insertExisting
  | eraseNonexisting
  | getExisting
  | getNonexisting
  | iteration
  deriving DecidableEq, Repr

/-- The macros of the configuration, with what is asserted of them. -/
structure Macros where
  keyCount : Nat
  keyCountMeasurementInterval : Nat
  runCount : Nat
  enabled : BenchmarkId → Bool
  keyCount_pos : 0 < keyCount
  interval_pos : 0 < keyCountMeasurementInterval
  interval_dvd : keyCount % keyCountMeasurementInterval = 0

namespace Macros

variable (config : Macros)

/-- The number of keys generated, of which `KEY_COUNT` are inserted. -/
def uniqueKeyCount : Nat :=
  config.keyCount + config.keyCount / config.keyCountMeasurementInterval * 1000

/-- The number of results of one run. -/
def resultCount : Nat := config.keyCount / config.keyCountMeasurementInterval

/-- The length of a vector of results. -/
def resultsSize : Nat := config.runCount * config.resultCount

/-- The position of a result in its vector. -/
def flatIndex (run resultIndex : Nat) : Nat := run * config.resultCount + resultIndex

/-- The macros are of type `int`, and the lengths of the vectors of keys and of
results are computed in it. -/
def Representable : Prop := config.uniqueKeyCount < 2 ^ 31 ∧ config.resultsSize < 2 ^ 31

instance : Decidable config.Representable := inferInstanceAs (Decidable (_ ∧ _))

end Macros

/-- A configuration under which these lengths are representable. -/
structure Config extends Macros where
  total_lt : keyCount + keyCount / keyCountMeasurementInterval * 1000 < 2 ^ 31
  results_lt : runCount * (keyCount / keyCountMeasurementInterval) < 2 ^ 31

/-- A random number generator. The distribution is uniform over a closed
range, and any number of it may come out. -/
structure Generator (G : Type*) where
  uniformIntDistribution : G → Nat → Nat → Nat × G
  mem : ∀ g {lo hi}, lo ≤ hi →
    lo ≤ (uniformIntDistribution g lo hi).1 ∧ (uniformIntDistribution g lo hi).1 ≤ hi

/-- What the driver is compiled with. -/
structure Setup (K T I G : Type) where
  config : Config
  shim : Shim K T I
  generator : Generator G
  keys : Nat → K

inductive Fault where
  | keyIndex
  | resultIndex
  | emptyRange
  | invalidItr
  | exited
  | intOverflow
  deriving DecidableEq, Repr

/-- `started` and `finished` are the two readings of the clock, and `restored`
is the end of the loop that inserts the erased keys again. -/
inductive Moment where
  | started
  | finished
  | restored
  deriving DecidableEq, Repr

/-- The table at a moment of a benchmark with `i` keys inserted, the validity of
an iterator that a search returned, or the assignment to a position in the
vector of results. -/
inductive Event (T : Type*) where
  | table (benchmark : BenchmarkId) (moment : Moment) (i : Nat) (table : T)
  | found (benchmark : BenchmarkId) (valid : Bool)
  | assigned (benchmark : BenchmarkId) (index i : Nat)

structure State (T G : Type) where
  table : T
  generator : G
  log : List (Event T)

abbrev Run (T G : Type) := StateT (State T G) (Except Fault)

/-- `n - 1` on a `size_t`. -/
def sizePred (n : Nat) : Nat := (n + 2 ^ 64 - 1) % 2 ^ 64

section Calls

variable {K T I G : Type} (d : Setup K T I G)

def shuffledUniqueKey (index : Nat) : Run T G K :=
  if index < d.config.uniqueKeyCount then pure (d.keys index) else throw .keyIndex

/-- The position of the result that is referred to. -/
def results (run resultIndex : Nat) : Run T G Nat :=
  if d.config.flatIndex run resultIndex < d.config.resultsSize then
    pure (d.config.flatIndex run resultIndex)
  else throw .resultIndex

def uniform (lo hi : Nat) : Run T G Nat := do
  if lo ≤ hi then
    let s ← get
    let draw := d.generator.uniformIntDistribution s.generator lo hi
    set { s with generator := draw.2 }
    return draw.1
  else throw .emptyRange

def createTable : Run T G PUnit :=
  modify fun s => { s with table := d.shim.createTable }

def insertKey (index : Nat) : Run T G PUnit := do
  let key ← shuffledUniqueKey d index
  modify fun s => { s with table := d.shim.insert s.table key }

def eraseKey (index : Nat) : Run T G PUnit := do
  let key ← shuffledUniqueKey d index
  modify fun s => { s with table := d.shim.erase s.table key }

def findKey (index : Nat) : Run T G I := do
  let key ← shuffledUniqueKey d index
  let s ← get
  let found := d.shim.find s.table key
  set { s with table := found.1 }
  return found.2

/-- Records the table. -/
def note (benchmark : BenchmarkId) (moment : Moment) (i : Nat) : Run T G PUnit :=
  modify fun s => { s with log := s.log ++ [.table benchmark moment i s.table] }

/-- Records the assignment of a result. -/
def noteAssigned (benchmark : BenchmarkId) (index i : Nat) : Run T G PUnit :=
  modify fun s => { s with log := s.log ++ [.assigned benchmark index i] }

/-- Records whether an iterator is valid. -/
def noteFound (benchmark : BenchmarkId) (itr : I) : Run T G PUnit :=
  modify fun s => { s with log := s.log ++ [.found benchmark (d.shim.isItrValid s.table itr)] }

end Calls

section Loops

variable {K T I G : Type} (d : Setup K T I G)

/-- The index after `l` in a walk over `lo..hi` that wraps around. -/
def nextIndex (lo hi l : Nat) : Nat := if l + 1 = hi then lo else l + 1

/-- The loops over 1000 keys, with the number of steps left. -/
def window (step : Nat → Run T G PUnit) (lo hi : Nat) : Nat → Nat → Run T G PUnit
  | 0, _ => pure ⟨⟩
  | left + 1, l => do
      step l
      window step lo hi left (nextIndex lo hi l)

/-- The loops that insert all keys, and measure after every interval. -/
def grow (measure : Nat → Run T G PUnit) (i j : Nat) : Run T G PUnit := do
  if i < d.config.keyCount then
    insertKey d i
    if j + 1 = d.config.keyCountMeasurementInterval then
      measure (i + 1)
      grow measure (i + 1) 0
    else
      grow measure (i + 1) (j + 1)
  else return ⟨⟩
termination_by d.config.keyCount - i

/-- The clock is read for the value of a result, which is then assigned. -/
def assignResult (run : Nat) (benchmark : BenchmarkId) (i : Nat) : Run T G PUnit := do
  note benchmark .finished i
  let index ← results d run (sizePred (i / d.config.keyCountMeasurementInterval))
  noteAssigned benchmark index i

/-- One timed stretch, and its result. -/
def timed (run : Nat) (benchmark : BenchmarkId) (i : Nat) (body : Run T G PUnit) :
    Run T G PUnit := do
  note benchmark .started i
  body
  assignResult d run benchmark i

/-- The body of a block that is compiled in if its benchmark is enabled. -/
def ifEnabled (benchmark : BenchmarkId) (body : Run T G PUnit) : Run T G PUnit :=
  if d.config.enabled benchmark then body else return ⟨⟩

end Loops

section Blocks

variable {K T I G : Type} (d : Setup K T I G) (run : Nat)

def insertNonexisting : Run T G PUnit := do
  createTable d
  note .insertNonexisting .started 0
  grow d (assignResult d run .insertNonexisting) 0 0

def reinsertAfterErasure : Run T G PUnit := do
  createTable d
  (List.range d.config.keyCount).forM (insertKey d)
  (List.range (d.config.keyCount - 1)).forM (eraseKey d)
  note .reinsertAfterErasure .started 0
  grow d (assignResult d run .reinsertAfterErasure) 0 0

def eraseExisting : Run T G PUnit := do
  createTable d
  grow d (fun i => do
    let eraseKeysBegin ← uniform d 0 (sizePred i)
    timed d run .eraseExisting i (window (eraseKey d) 0 i 1000 eraseKeysBegin)
    window (insertKey d) 0 i 1000 eraseKeysBegin
    note .eraseExisting .restored i) 0 0

def insertExisting (i : Nat) : Run T G PUnit := do
  let l ← uniform d 0 (sizePred i)
  timed d run .insertExisting i (window (insertKey d) 0 i 1000 l)

def eraseNonexisting (i : Nat) : Run T G PUnit := do
  let l ← uniform d d.config.keyCount (sizePred d.config.uniqueKeyCount)
  timed d run .eraseNonexisting i
    (window (eraseKey d) d.config.keyCount d.config.uniqueKeyCount 1000 l)

/-- One search for a key that is in the table. A mismatch ends the program. -/
def getExistingStep [DecidableEq K] (l : Nat) : Run T G PUnit := do
  let itr ← findKey d l
  noteFound d .getExisting itr
  let s ← get
  match d.shim.getKeyFromItr s.table itr with
  | none => throw .invalidItr
  | some key =>
      let expected ← shuffledUniqueKey d l
      if key ≠ expected then throw .exited else return ⟨⟩

def getExisting [DecidableEq K] (i : Nat) : Run T G PUnit := do
  let l ← uniform d 0 (sizePred i)
  timed d run .getExisting i (window (getExistingStep d) 0 i 1000 l)

def getNonexistingStep (l : Nat) : Run T G PUnit := do
  let itr ← findKey d l
  noteFound d .getNonexisting itr

def getNonexisting (i : Nat) : Run T G PUnit := do
  let l ← uniform d d.config.keyCount (sizePred d.config.uniqueKeyCount)
  timed d run .getNonexisting i
    (window (getNonexistingStep d) d.config.keyCount d.config.uniqueKeyCount 1000 l)

/-- The key under an iterator. An invalid one is not read through. -/
def readKey (t : T) (itr : I) : Run T G K :=
  if d.shim.isItrValid t itr then
    match d.shim.getKeyFromItr t itr with
    | none => throw .invalidItr
    | some key => return key
  else throw .invalidItr

/-- The keys that the loop of the iteration reads, from `itr` on. -/
def readKeys (t : T) : Nat → I → Run T G (List K)
  | 0, _ => return []
  | left + 1, itr => do
      let key ← readKey d t itr
      let next := d.shim.incrementItr t itr
      let rest ← readKeys t left (if d.shim.isItrValid t next then next else d.shim.beginItr t)
      return key :: rest

/-- The iteration with the keys it reads. -/
def iterationKeys (i : Nat) : Run T G (List K) := do
  let l ← uniform d 0 (sizePred i)
  let itr ← findKey d l
  note .iteration .started i
  let s ← get
  let keys ← readKeys d s.table 1000 itr
  assignResult d run .iteration i
  return keys

def iteration (i : Nat) : Run T G PUnit := do
  let _ ← iterationKeys d run i
  return ⟨⟩

/-- The block of the benchmarks that share one table. -/
def combined [DecidableEq K] : Run T G PUnit := do
  createTable d
  grow d (fun i => do
    ifEnabled d .insertExisting (insertExisting d run i)
    ifEnabled d .eraseNonexisting (eraseNonexisting d run i)
    ifEnabled d .getExisting (getExisting d run i)
    ifEnabled d .getNonexisting (getNonexisting d run i)
    ifEnabled d .iteration (iteration d run i)) 0 0

/-- One run of the benchmarks on one shim and blueprint. -/
def benchmark [DecidableEq K] : Run T G PUnit := do
  let _ ← shuffledUniqueKey d 0
  let _ ← results d 0 0
  ifEnabled d .insertNonexisting (insertNonexisting d run)
  ifEnabled d .reinsertAfterErasure (reinsertAfterErasure d run)
  ifEnabled d .eraseExisting (eraseExisting d run)
  if d.config.enabled .insertExisting || d.config.enabled .eraseNonexisting ||
      d.config.enabled .getExisting || d.config.enabled .getNonexisting ||
      d.config.enabled .iteration then
    combined d run
  else return ⟨⟩

end Blocks

end HashBench.Driver
