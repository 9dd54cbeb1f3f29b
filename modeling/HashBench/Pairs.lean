import HashBench.Blueprint
import Mathlib.Data.Multiset.MapFold
import Mathlib.Data.Multiset.Filter
import Mathlib.Tactic.Tauto

/-! Tables that store pairs. What a lookup finds in them is a partial function
of the key, which a call changes on the keys that match its own. -/
namespace HashBench

/-- One call that may change a table that stores pairs. -/
inductive MapOp (K V : Type*) where
  | insert (key : K) (val : V)
  | getOrInsert (key : K) (val : V)
  | erase (key : K)
  | reserve (size : Nat)
  | shrink
  | clear
  deriving DecidableEq, Repr

/-- One call that may change a table with the interface of the C++ library's maps:
`assign` is `table[ key ] = val`. -/
inductive StdOp (K V : Type*) where
  | assign (key : K) (val : V)
  | tryEmplace (key : K) (val : V)
  | erase (key : K)
  | reserve (size : Nat)
  | rehash (count : Nat)
  | clear
  deriving DecidableEq, Repr

namespace Blueprint

variable {K V : Type*} (bp : Blueprint K V)

/-- The keys of these pairs, up to `cmpr_keys`. -/
def keyClasses (stored : Multiset (K × V)) : Multiset bp.Class :=
  stored.map fun pair => bp.cls pair.1

/-- What is found after a pair was written. -/
def put (found : K → Option (K × V)) (key : K) (val : V) (k : K) : Option (K × V) :=
  if bp.cmprKeys key k then some (key, val) else found k

/-- What is found after a value was assigned to a key, whose old key stays. -/
def assign (found : K → Option (K × V)) (key : K) (val : V) : K → Option (K × V) :=
  bp.put found ((found key).elim key Prod.fst) val

/-- What is found after a key was erased. -/
def remove (found : K → Option (K × V)) (key k : K) : Option (K × V) :=
  if bp.cmprKeys key k then none else found k

/-- The effect of one call on what is found. -/
def applyOp (found : K → Option (K × V)) : MapOp K V → K → Option (K × V)
  | .insert key val => bp.put found key val
  | .getOrInsert key val => if (found key).isSome then found else bp.put found key val
  | .erase key => bp.remove found key
  | .reserve _ => found
  | .shrink => found
  | .clear => fun _ => none

/-- What is found after these calls in this order. -/
def mapOf (ops : List (MapOp K V)) : K → Option (K × V) := ops.foldl bp.applyOp fun _ => none

/-- The effect of one call with the interface of the C++ library on what is found. -/
def applyStd (found : K → Option (K × V)) : StdOp K V → K → Option (K × V)
  | .assign key val => bp.assign found key val
  | .tryEmplace key val => if (found key).isSome then found else bp.put found key val
  | .erase key => bp.remove found key
  | .reserve _ => found
  | .rehash _ => found
  | .clear => fun _ => none

def stdMapOf (ops : List (StdOp K V)) : K → Option (K × V) :=
  ops.foldl bp.applyStd fun _ => none

theorem stdMapOf_concat (ops : List (StdOp K V)) (op : StdOp K V) :
    bp.stdMapOf (ops ++ [op]) = bp.applyStd (bp.stdMapOf ops) op := by
  rw [stdMapOf, List.foldl_append]
  rfl

theorem mapOf_concat (ops : List (MapOp K V)) (op : MapOp K V) :
    bp.mapOf (ops ++ [op]) = bp.applyOp (bp.mapOf ops) op := by
  rw [mapOf, List.foldl_append]
  rfl

/-- A listing of the pairs that are found, each listed once. -/
def Lists (order : List (K × V)) (found : K → Option (K × V)) : Prop :=
  (order.Pairwise fun pair pair' => bp.cmprKeys pair.1 pair'.1 = false) ∧
    ∀ key pair, found key = some pair ↔ pair ∈ order ∧ bp.cmprKeys pair.1 key = true

/-- There are never more than `bound` keys at a time. -/
def AtMost {O : Type*} (effect : (K → Option (K × V)) → O → K → Option (K × V)) (bound : Nat)
    (ops : List O) : Prop :=
  ∀ before after, ops = before ++ after →
    ∀ order, bp.Lists order (before.foldl effect fun _ => none) → order.length ≤ bound

/-- Every key finds the stored pair whose key matches. -/
def Finds (stored : Multiset (K × V)) (found : K → Option (K × V)) : Prop :=
  ∀ key pair, found key = some pair ↔ pair ∈ stored ∧ bp.cmprKeys pair.1 key = true

variable {bp} {stored : Multiset (K × V)} {found : K → Option (K × V)} {key : K} {pair : K × V}

@[simp] theorem keyClasses_cons (pair : K × V) (stored : Multiset (K × V)) :
    bp.keyClasses (pair ::ₘ stored) = bp.cls pair.1 ::ₘ bp.keyClasses stored :=
  Multiset.map_cons ..

theorem mem_keyClasses :
    bp.cls key ∈ bp.keyClasses stored ↔ ∃ pair ∈ stored, bp.cmprKeys pair.1 key = true := by
  simp only [keyClasses, Multiset.mem_map, cls_eq_iff]

theorem notMem_keyClasses :
    bp.cls key ∉ bp.keyClasses stored ↔ ∀ pair ∈ stored, bp.cmprKeys pair.1 key = false := by
  simp only [mem_keyClasses, not_exists, not_and, Bool.not_eq_true]

namespace Finds

theorem empty : bp.Finds 0 (fun _ => none) := by
  intro key pair
  simp

theorem isSome_iff (h : bp.Finds stored found) :
    (found key).isSome = true ↔ bp.cls key ∈ bp.keyClasses stored := by
  rw [Option.isSome_iff_exists, mem_keyClasses]
  exact exists_congr fun pair => h key pair

theorem eq_none (h : bp.Finds stored found) (hKey : bp.cls key ∉ bp.keyClasses stored) :
    found key = none :=
  Option.eq_none_iff_forall_ne_some.mpr fun pair hPair =>
    hKey (mem_keyClasses.mpr ⟨pair, (h key pair).mp hPair⟩)

/-- A pair with a key that no stored one matches. -/
theorem insert_new (h : bp.Finds stored found) (hKey : bp.cls key ∉ bp.keyClasses stored)
    (val : V) : bp.Finds ((key, val) ::ₘ stored) (bp.put found key val) := by
  intro k pair
  rw [put, Multiset.mem_cons]
  split_ifs with hMatch
  · constructor
    · intro hSome
      cases hSome
      exact ⟨Or.inl rfl, hMatch⟩
    · rintro ⟨rfl | hOld, hPair⟩
      · rfl
      · have hNot := notMem_keyClasses.mp hKey pair hOld
        rw [bp.cmprKeys_trans hPair (bp.cmprKeys_symm hMatch)] at hNot
        cases hNot
  · rw [h k pair]
    constructor
    · rintro ⟨hOld, hPair⟩
      exact ⟨Or.inr hOld, hPair⟩
    · rintro ⟨rfl | hOld, hPair⟩
      · exact absurd hPair hMatch
      · exact ⟨hOld, hPair⟩

/-- Without the pair of a key, no lookup of it finds anything. -/
theorem erase_stored (h : bp.Finds (pair ::ₘ stored) found)
    (hNodup : (bp.keyClasses (pair ::ₘ stored)).Nodup) (hKey : bp.cmprKeys pair.1 key = true) :
    bp.Finds stored (bp.remove found key) := by
  rw [keyClasses_cons, Multiset.nodup_cons] at hNodup
  have hAbsent := hNodup.1
  intro k other
  rw [remove]
  split_ifs with hMatch
  · refine ⟨fun hSome => hSome.elim, fun hOther => ?_⟩
    have hNot := notMem_keyClasses.mp hAbsent other hOther.1
    have hBack := bp.cmprKeys_trans hOther.2 (bp.cmprKeys_symm (bp.cmprKeys_trans hKey hMatch))
    rw [hBack] at hNot
    cases hNot
  · rw [h k other, Multiset.mem_cons]
    refine ⟨fun hOther => ⟨hOther.1.resolve_left ?_, hOther.2⟩,
      fun hOther => ⟨Or.inr hOther.1, hOther.2⟩⟩
    rintro rfl
    exact hMatch (bp.cmprKeys_trans (bp.cmprKeys_symm hKey) hOther.2)

theorem erase_absent (h : bp.Finds stored found) (hKey : bp.cls key ∉ bp.keyClasses stored) :
    bp.Finds stored (bp.remove found key) := by
  intro k pair
  rw [remove]
  split_ifs with hMatch
  · refine ⟨fun hSome => hSome.elim,
      fun hPair => absurd ?_ hKey⟩
    exact mem_keyClasses.mpr ⟨pair, hPair.1,
      bp.cmprKeys_trans hPair.2 (bp.cmprKeys_symm hMatch)⟩
  · exact h k pair

/-- A pair that takes the place of the one with a matching key. -/
theorem insert_old (h : bp.Finds (pair ::ₘ stored) found)
    (hNodup : (bp.keyClasses (pair ::ₘ stored)).Nodup) (hKey : bp.cmprKeys pair.1 key = true)
    (val : V) : bp.Finds ((key, val) ::ₘ stored) (bp.put found key val) := by
  have hAbsent : bp.cls pair.1 ∉ bp.keyClasses stored := by
    rw [keyClasses_cons, Multiset.nodup_cons] at hNodup
    exact hNodup.1
  rw [bp.cls_eq_iff.mpr hKey] at hAbsent
  have hTaken := (h.erase_stored hNodup hKey).insert_new hAbsent val
  have hSame : bp.put (bp.remove found key) key val = bp.put found key val := by
    funext k
    simp only [put, remove]
    split_ifs <;> rfl
  exact hSame ▸ hTaken

/-- Some of the pairs are taken out. -/
theorem filter (h : bp.Finds stored found) (keep : K × V → Bool) :
    bp.Finds (stored.filter fun pair => keep pair = true) fun key => (found key).filter keep := by
  intro key pair
  rw [Multiset.mem_filter, Option.filter_eq_some_iff, h key pair]
  tauto

end Finds

/-- Pairs with distinct keys can be found. -/
theorem exists_finds (hNodup : (bp.keyClasses stored).Nodup) : ∃ found, bp.Finds stored found := by
  induction stored using Multiset.induction_on with
  | empty => exact ⟨_, Finds.empty⟩
  | cons pair stored ih =>
      rw [keyClasses_cons, Multiset.nodup_cons] at hNodup
      obtain ⟨found, hFinds⟩ := ih hNodup.2
      exact ⟨_, hFinds.insert_new hNodup.1 pair.2⟩

/-- The keys of a table that stores pairs. -/
theorem Finds.holds (h : bp.Finds stored found) :
    bp.Holds (bp.keyClasses stored) fun key => (found key).isSome :=
  fun _ => h.isSome_iff

/-- The stored pairs are a listing of what is found. -/
theorem Finds.lists {order : List (K × V)} (h : bp.Finds (order : Multiset (K × V)) found)
    (hNodup : (bp.keyClasses (order : Multiset (K × V))).Nodup) : bp.Lists order found := by
  refine ⟨?_, fun key pair => h key pair⟩
  have hKeys : (order.map fun pair => bp.cls pair.1).Nodup := hNodup
  refine (List.pairwise_map.mp hKeys).imp fun hNe => ?_
  exact Bool.eq_false_iff.mpr fun hMatch => hNe (bp.cls_eq_iff.mpr hMatch)

theorem Finds.exists_lists (h : bp.Finds stored found) (hNodup : (bp.keyClasses stored).Nodup) :
    ∃ order : List (K × V), bp.Lists order found ∧ order = stored := by
  obtain ⟨order, rfl⟩ := Quotient.exists_rep stored
  exact ⟨order, h.lists hNodup, rfl⟩

theorem Lists.nodup {order : List (K × V)} (h : bp.Lists order found) :
    (bp.keyClasses (order : Multiset (K × V))).Nodup := by
  refine List.pairwise_map.mpr (h.1.imp fun {pair pair'} hNe hSame => ?_)
  rw [bp.cls_eq_iff.mp hSame] at hNe
  cases hNe

/-- Keys that match find the same. -/
theorem Finds.congr (h : bp.Finds stored found) {key' : K} (hKey : bp.cmprKeys key key' = true) :
    found key = found key' := by
  apply Option.ext
  intro pair
  rw [h key pair, h key' pair]
  constructor
  · rintro ⟨hPair, hMatch⟩
    exact ⟨hPair, bp.cmprKeys_trans hMatch hKey⟩
  · rintro ⟨hPair, hMatch⟩
    exact ⟨hPair, bp.cmprKeys_trans hMatch (bp.cmprKeys_symm hKey)⟩

/-- A listing has as many pairs as the table. -/
theorem Lists.length_eq {order : List (K × V)} (h : bp.Lists order found)
    (hFinds : bp.Finds stored found) (hNodup : (bp.keyClasses stored).Nodup) :
    order.length = stored.card := by
  have hOrder : bp.Finds (order : Multiset (K × V)) found := h.2
  have hSame := hOrder.holds.unique hFinds.holds h.nodup hNodup
  have hCard := congrArg Multiset.card hSame
  rwa [keyClasses, keyClasses, Multiset.card_map, Multiset.card_map] at hCard

/-- A call that adds at most one pair. -/
def AddsOne {O : Type*} (bp : Blueprint K V)
    (effect : (K → Option (K × V)) → O → K → Option (K × V)) : Prop :=
  ∀ stored found op, bp.Finds stored found → (bp.keyClasses stored).Nodup →
    ∃ stored', bp.Finds stored' (effect found op) ∧ (bp.keyClasses stored').Nodup ∧
      stored'.card ≤ stored.card + 1

theorem Finds.exists_put (h : bp.Finds stored found) (hNodup : (bp.keyClasses stored).Nodup)
    (key : K) (val : V) : ∃ stored', bp.Finds stored' (bp.put found key val) ∧
      (bp.keyClasses stored').Nodup ∧ stored'.card ≤ stored.card + 1 := by
  by_cases hKey : bp.cls key ∈ bp.keyClasses stored
  · obtain ⟨pair, hPair, hMatch⟩ := mem_keyClasses.mp hKey
    obtain ⟨rest, rfl⟩ := Multiset.exists_cons_of_mem hPair
    refine ⟨_, h.insert_old hNodup hMatch val, ?_, ?_⟩
    · rw [keyClasses_cons, bp.cls_eq_iff.mpr hMatch] at hNodup
      exact keyClasses_cons (key, val) rest ▸ hNodup
    · rw [Multiset.card_cons, Multiset.card_cons]
      exact Nat.le_succ _
  · refine ⟨_, h.insert_new hKey val, ?_, (Multiset.card_cons ..).le⟩
    exact keyClasses_cons (key, val) stored ▸ Multiset.nodup_cons.mpr ⟨hKey, hNodup⟩

theorem Finds.exists_remove (h : bp.Finds stored found) (hNodup : (bp.keyClasses stored).Nodup)
    (key : K) : ∃ stored', bp.Finds stored' (bp.remove found key) ∧
      (bp.keyClasses stored').Nodup ∧ stored'.card ≤ stored.card + 1 := by
  by_cases hKey : bp.cls key ∈ bp.keyClasses stored
  · obtain ⟨pair, hPair, hMatch⟩ := mem_keyClasses.mp hKey
    obtain ⟨rest, rfl⟩ := Multiset.exists_cons_of_mem hPair
    refine ⟨rest, h.erase_stored hNodup hMatch, ?_, ?_⟩
    · rw [keyClasses_cons] at hNodup
      exact (Multiset.nodup_cons.mp hNodup).2
    · rw [Multiset.card_cons]
      omega
  · exact ⟨stored, h.erase_absent hKey, hNodup, Nat.le_succ _⟩

theorem applyOp_addsOne (bp : Blueprint K V) : bp.AddsOne bp.applyOp := by
  intro stored found op h hNodup
  cases op with
  | insert key val => exact h.exists_put hNodup key val
  | getOrInsert key val =>
      rw [applyOp]
      split_ifs
      · exact ⟨stored, h, hNodup, Nat.le_succ _⟩
      · exact h.exists_put hNodup key val
  | erase key => exact h.exists_remove hNodup key
  | reserve size => exact ⟨stored, h, hNodup, Nat.le_succ _⟩
  | shrink => exact ⟨stored, h, hNodup, Nat.le_succ _⟩
  | clear => exact ⟨0, Finds.empty, Multiset.nodup_zero, Nat.zero_le _⟩

theorem applyStd_addsOne (bp : Blueprint K V) : bp.AddsOne bp.applyStd := by
  intro stored found op h hNodup
  cases op with
  | assign key val => exact h.exists_put hNodup _ val
  | tryEmplace key val =>
      rw [applyStd]
      split_ifs
      · exact ⟨stored, h, hNodup, Nat.le_succ _⟩
      · exact h.exists_put hNodup key val
  | erase key => exact h.exists_remove hNodup key
  | reserve size => exact ⟨stored, h, hNodup, Nat.le_succ _⟩
  | rehash count => exact ⟨stored, h, hNodup, Nat.le_succ _⟩
  | clear => exact ⟨0, Finds.empty, Multiset.nodup_zero, Nat.zero_le _⟩

/-- What is found after some calls can be stored. -/
theorem AddsOne.exists_stored {O : Type*} {effect : (K → Option (K × V)) → O → K → Option (K × V)}
    (h : bp.AddsOne effect) (ops : List O) :
    ∃ stored, bp.Finds stored (ops.foldl effect fun _ => none) ∧ (bp.keyClasses stored).Nodup ∧
      stored.card ≤ ops.length := by
  induction ops using List.reverseRecOn with
  | nil => exact ⟨0, Finds.empty, Multiset.nodup_zero, le_rfl⟩
  | append_singleton ops op ih =>
      obtain ⟨stored, hFinds, hNodup, hCard⟩ := ih
      obtain ⟨stored', hFinds', hNodup', hCard'⟩ := h stored _ op hFinds hNodup
      rw [List.foldl_append, List.length_append]
      exact ⟨stored', hFinds', hNodup', hCard'.trans (Nat.succ_le_succ hCard)⟩

/-- Insertions of distinct keys leave a pair for each. -/
theorem lists_insertions (bp : Blueprint K V) (val : V) {keys : List K}
    (h : keys.Pairwise fun k k' => bp.cmprKeys k k' = false) :
    bp.Lists (keys.map fun k => (k, val)) (bp.mapOf (keys.map fun k => .insert k val)) := by
  have hNodup {keys : List K} (h : keys.Pairwise fun k k' => bp.cmprKeys k k' = false) :
      (bp.keyClasses (keys.map fun k => (k, val) : List (K × V))).Nodup := by
    refine List.pairwise_map.mpr (List.pairwise_map.mpr (h.imp fun {k k'} hNe hSame => ?_))
    rw [bp.cls_eq_iff.mp hSame] at hNe
    cases hNe
  refine Finds.lists ?_ (hNodup h)
  induction keys using List.reverseRecOn with
  | nil => exact Finds.empty
  | append_singleton keys key ih =>
      obtain ⟨hKeys, _, hLast⟩ := List.pairwise_append.mp h
      have hAbsent : bp.cls key ∉ bp.keyClasses (keys.map fun k => (k, val) : List (K × V)) := by
        refine notMem_keyClasses.mpr fun pair hPair => ?_
        obtain ⟨k, hk, rfl⟩ := List.mem_map.mp hPair
        exact hLast k hk key (List.mem_singleton_self key)
      have hNew := (ih hKeys).insert_new hAbsent val
      rw [List.map_append, List.map_append, List.map_singleton, List.map_singleton, mapOf_concat,
        applyOp, ← Multiset.coe_add, Multiset.add_comm, Multiset.coe_singleton, Multiset.singleton_add]
      exact hNew

namespace AtMost

variable {O : Type*} {effect : (K → Option (K × V)) → O → K → Option (K × V)} {bound : Nat}

theorem card_le {ops : List O} (h : bp.AtMost effect bound ops)
    (hFinds : bp.Finds stored (ops.foldl effect fun _ => none))
    (hNodup : (bp.keyClasses stored).Nodup) : stored.card ≤ bound := by
  obtain ⟨order, hLists, rfl⟩ := hFinds.exists_lists hNodup
  exact h ops [] (List.append_nil ops).symm order hLists

theorem of_length {ops : List O} (hEffect : bp.AddsOne effect) (h : ops.length ≤ bound) :
    bp.AtMost effect bound ops := by
  rintro before after rfl order hOrder
  obtain ⟨stored, hFinds, hNodup, hCard⟩ := hEffect.exists_stored before
  rw [List.length_append] at h
  rw [hOrder.length_eq hFinds hNodup]
  omega

theorem left {before after : List O} (h : bp.AtMost effect bound (before ++ after)) :
    bp.AtMost effect bound before := by
  intro first rest hSplit
  apply h first (rest ++ after)
  rw [← List.append_assoc, ← hSplit]

end AtMost

end Blueprint

end HashBench
