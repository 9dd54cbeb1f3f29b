import HashBench.Blueprint
import HashBench.Library.Iteration
import Mathlib.Data.Set.Insert

/-! The calls that a shim provides, and the two parts of its documented
contract: insertion, erasure and search are those of a finite map, and the
iterators go through its keys. -/
namespace HashBench

open Iteration

/-- The calls of a shim for one blueprint. `getKeyFromItr` is `none` where the
iterator points at no key. -/
structure Shim (K T I : Type*) where
  createTable : T
  insert : T → K → T
  erase : T → K → T
  find : T → K → T × I
  beginItr : T → I
  isItrValid : T → I → Bool
  incrementItr : T → I → I
  getKeyFromItr : T → I → Option K

/-- The calls keep the set of stored keys. An insertion replaces a matching key
or leaves it in place, and a search may touch the table but not its keys. -/
structure Shim.IsMap {K V T I : Type*} (shim : Shim K T I) (bp : Blueprint K V)
    (Stores : T → Set K → Prop) : Prop where
  create : Stores shim.createTable ∅
  insert : ∀ {t stored} key, Stores t stored →
    Stores (shim.insert t key) (Insert.insert key {k ∈ stored | bp.cmprKeys key k = false}) ∨
      (∃ k ∈ stored, bp.cmprKeys key k = true) ∧ Stores (shim.insert t key) stored
  erase : ∀ {t stored} key, Stores t stored →
    Stores (shim.erase t key) {k ∈ stored | bp.cmprKeys key k = false}
  find : ∀ {t stored} key, Stores t stored → Stores (shim.find t key).1 stored ∧
    ((∃ k ∈ stored, bp.cmprKeys key k = true ∧
        shim.isItrValid (shim.find t key).1 (shim.find t key).2 = true ∧
        shim.getKeyFromItr (shim.find t key).1 (shim.find t key).2 = some k) ∨
      (∀ k ∈ stored, bp.cmprKeys key k = false) ∧
        shim.isItrValid (shim.find t key).1 (shim.find t key).2 = false)

/-- A scan from the first iterator reads every stored key once, and from a
search it goes on as the scan does from there. -/
structure Shim.Iterates {K V T I : Type*} (shim : Shim K T I) (bp : Blueprint K V)
    (Stores : T → Set K → Prop) : Prop where
  begin : ∀ {t stored}, Stores t stored → ∃ order : List K,
    order.Pairwise (fun k k' => bp.cmprKeys k k' = false) ∧ (∀ k, k ∈ order ↔ k ∈ stored) ∧
      Visits (shim.isItrValid t) (shim.incrementItr t) (shim.getKeyFromItr t) (shim.beginItr t)
        (order.map some)
  find : ∀ {t stored} key, Stores t stored → (∃ k ∈ stored, bp.cmprKeys key k = true) →
    let found := shim.find t key
    Resumes (shim.isItrValid found.1) (shim.incrementItr found.1) (shim.getKeyFromItr found.1)
      (shim.beginItr found.1) found.2 fun read => ∃ k, read = some k ∧ bp.cmprKeys key k = true

end HashBench
