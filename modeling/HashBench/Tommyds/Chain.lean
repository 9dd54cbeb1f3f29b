import HashBench.Blueprint
import HashBench.Library.Iteration
import Mathlib.Algebra.BigOperators.Group.Finset.Basic
import Mathlib.Algebra.Order.BigOperators.Group.Finset
import Mathlib.Tactic.Abel

/-! Bucket chains shared by the TommyDS shims. A `tommy_list` is null
terminated along `next`, so a pointer to a node is the list from that node on
and the null pointer is the empty list. -/
namespace HashBench.Tommyds

open Iteration

/-- The bits of `tommy_size_t` and `tommy_hash_t` on a 64-bit target. -/
def sizeBit : Nat := 64

/-- The shim's `Entry`, without the node embedded in it. -/
structure Entry (K V : Type*) where
  keyK : K
  valueV : V

/-- A `tommy_node`: its stored hash and the `Entry` it belongs to. -/
structure Node (K V : Type*) where
  index : Nat
  data : Entry K V

variable {K V : Type*}

abbrev Chain (K V : Type*) := List (Node K V)

def tommyListInsertFirst (node : Node K V) : Chain K V := [node]

def tommyListInsertTailNotEmpty (head : Chain K V) (node : Node K V) : Chain K V :=
  head ++ [node]

def tommyListInsertTail (list : Chain K V) (node : Node K V) : Chain K V :=
  match list with
  | [] => tommyListInsertFirst node
  | head => tommyListInsertTailNotEmpty head node

def tommyListConcat (first second : Chain K V) : Chain K V :=
  match second with
  | [] => first
  | secondHead =>
      match first with
      | [] => secondHead
      | firstHead => firstHead ++ secondHead

@[simp] theorem tommyListInsertTail_eq (list : Chain K V) (node : Node K V) :
    tommyListInsertTail list node = list ++ [node] := by
  cases list <;> rfl

@[simp] theorem tommyListConcat_eq (first second : Chain K V) :
    tommyListConcat first second = first ++ second := by
  cases second with
  | nil => simp [tommyListConcat]
  | cons node rest => cases first <;> rfl

variable (bp : Blueprint K V)

/-- `static_cast<tommy_hash_t>(blueprint::hash_key(key))`. -/
def hashOf (key : K) : Nat := bp.hashKey key % 2 ^ sizeBit

/-- Whether a node matches: the full hash first, then the keys. -/
def isMatch (key : K) (node : Node K V) : Bool :=
  node.index == hashOf bp key && bp.cmprKeys key node.data.keyK

/-- The chain walk of `find`: the node found, as the rest of the chain. -/
def chainFind (key : K) : Chain K V → Chain K V
  | [] => []
  | node :: next => if isMatch bp key node then node :: next else chainFind key next

/-- The chain walk of `insert`: on a match the value is updated in place. -/
def chainUpdate (key : K) : Chain K V → Option (Chain K V)
  | [] => none
  | node :: next =>
      if isMatch bp key node then
        some ({ node with data := { node.data with valueV := bp.valueType } } :: next)
      else (chainUpdate key next).map (node :: ·)

/-- The chain walk of `tommy_*_remove`: the first match is unlinked. -/
def chainRemove (key : K) : Chain K V → Option (Chain K V)
  | [] => none
  | node :: next =>
      if isMatch bp key node then some next
      else (chainRemove key next).map (node :: ·)

/-- The walk finds a match exactly when the chain has one. -/
theorem chainFind_split (key : K) (chain : Chain K V) :
    (∃ before node after, chain = before ++ node :: after ∧ isMatch bp key node = true ∧
        chainFind bp key chain = node :: after ∧
        chainUpdate bp key chain = some (before ++
          { node with data := { node.data with valueV := bp.valueType } } :: after) ∧
        chainRemove bp key chain = some (before ++ after)) ∨
      ((∀ node ∈ chain, isMatch bp key node = false) ∧ chainFind bp key chain = [] ∧
        chainUpdate bp key chain = none ∧ chainRemove bp key chain = none) := by
  induction chain with
  | nil => exact Or.inr ⟨by simp, rfl, rfl, rfl⟩
  | cons node next ih =>
      by_cases h : isMatch bp key node
      · exact Or.inl ⟨[], node, next, by simp [chainFind, chainUpdate, chainRemove, h]⟩
      · rcases ih with ⟨before, found, after, hSplit, hMatch, hFind, hUpdate, hRemove⟩ |
          ⟨hNone, hFind, hUpdate, hRemove⟩
        · refine Or.inl ⟨node :: before, found, after, by simp [hSplit], hMatch, ?_, ?_, ?_⟩
          · simp [chainFind, h, hFind]
          · simp [chainUpdate, h, hUpdate]
          · simp [chainRemove, h, hRemove]
        · refine Or.inr ⟨?_, ?_, ?_, ?_⟩
          · simpa [h] using hNone
          · simp [chainFind, h, hFind]
          · simp [chainUpdate, h, hUpdate]
          · simp [chainRemove, h, hRemove]

section Buckets

/-- All nodes chained in the first `n` buckets. -/
def nodes (bucket : Nat → Chain K V) (n : Nat) : Multiset (Node K V) :=
  ∑ i ∈ Finset.range n, (bucket i : Multiset (Node K V))

theorem mem_nodes {bucket : Nat → Chain K V} {n : Nat} {node : Node K V} :
    node ∈ nodes bucket n ↔ ∃ i < n, node ∈ bucket i := by
  simp [nodes, Multiset.mem_sum]

theorem nodes_congr {bucket bucket' : Nat → Chain K V} {n : Nat}
    (h : ∀ i < n, bucket i = bucket' i) : nodes bucket n = nodes bucket' n :=
  Finset.sum_congr rfl fun i hi => by rw [h i (Finset.mem_range.mp hi)]

theorem nodes_succ (bucket : Nat → Chain K V) (n : Nat) :
    nodes bucket (n + 1) = nodes bucket n + bucket n :=
  Finset.sum_range_succ _ _

/-- Replacing one chain moves the total by that chain alone. -/
theorem nodes_update (bucket : Nat → Chain K V) {n i : Nat} (hi : i < n) (chain : Chain K V) :
    nodes (Function.update bucket i chain) n + bucket i = nodes bucket n + chain := by
  have hMem : i ∈ Finset.range n := Finset.mem_range.mpr hi
  have hRest : ∑ p ∈ (Finset.range n).erase i,
      (Function.update bucket i chain p : Multiset (Node K V)) =
      ∑ p ∈ (Finset.range n).erase i, (bucket p : Multiset (Node K V)) := by
    refine Finset.sum_congr rfl fun p hp => ?_
    rw [Function.update_of_ne (Finset.ne_of_mem_erase hp)]
  unfold nodes
  rw [← Finset.add_sum_erase _ _ hMem,
    ← Finset.add_sum_erase _ (fun p => (bucket p : Multiset (Node K V))) hMem, hRest,
    Function.update_self]
  abel

theorem card_nodes_update (bucket : Nat → Chain K V) {n i : Nat} (hi : i < n) (chain : Chain K V) :
    (nodes (Function.update bucket i chain) n).card + (bucket i).length =
      (nodes bucket n).card + chain.length := by
  simpa using congrArg Multiset.card (nodes_update bucket hi chain)

theorem nodes_double (bucket : Nat → Chain K V) (m : Nat) :
    nodes bucket (m + m) = ∑ i ∈ Finset.range m,
      ((bucket i : Multiset (Node K V)) + (bucket (i + m) : Multiset (Node K V))) := by
  rw [nodes, Finset.sum_range_add, ← Finset.sum_add_distrib]
  exact Finset.sum_congr rfl fun i _ => by rw [Nat.add_comm m i]

/-- The scan order: bucket after bucket, each chain from its head. -/
def scanFrom (bucket : Nat → Chain K V) (n i : Nat) : Chain K V :=
  (List.range' i (n - i)).flatMap bucket

theorem scanFrom_of_lt (bucket : Nat → Chain K V) {n i : Nat} (hi : i < n) :
    scanFrom bucket n i = bucket i ++ scanFrom bucket n (i + 1) := by
  have hStep : n - i = (n - (i + 1)) + 1 := by omega
  rw [scanFrom, scanFrom, hStep, List.range'_succ, List.flatMap_cons]

theorem scanFrom_of_ge (bucket : Nat → Chain K V) {n i : Nat} (hi : n ≤ i) :
    scanFrom bucket n i = [] := by
  simp [scanFrom, Nat.sub_eq_zero_of_le hi]

/-- The scan meets bucket `i` after the buckets before it. -/
theorem scanFrom_split (bucket : Nat → Chain K V) {n i : Nat} (hi : i < n) :
    scanFrom bucket n 0 =
      (List.range i).flatMap bucket ++ bucket i ++ scanFrom bucket n (i + 1) := by
  rw [List.append_assoc, ← scanFrom_of_lt bucket hi, scanFrom, scanFrom, ← List.flatMap_append,
    List.range_eq_range', Nat.sub_zero]
  congr 1
  rw [show n = i + (n - i) by omega, ← List.range'_append_1]
  simp

/-- The scan lists exactly the chained nodes. -/
theorem coe_scanFrom (bucket : Nat → Chain K V) (n : Nat) :
    (scanFrom bucket n 0 : Multiset (Node K V)) = nodes bucket n := by
  induction n with
  | zero => rfl
  | succ n ih =>
      rw [scanFrom_split bucket (Nat.lt_succ_self n), scanFrom_of_ge bucket (Nat.le_refl _),
        List.append_nil, ← Multiset.coe_add, nodes_succ, ← ih, scanFrom, Nat.sub_zero, List.range_eq_range']

end Buckets

section Iterators

/-- The shims' `Iterator`: the table, a bucket index, and a node of a chain. -/
structure Iterator (T K V : Type*) where
  tablePtr : Option T
  bucketIdx : Nat
  nodePtr : Chain K V

variable {T : Type*} (active : T → Nat) (bucket : T → Nat → Chain K V)

/-- The loop of `advance`: the head of the next nonempty bucket. Each round
passes one of the buckets below `active`. -/
def nextBucket (t : T) : Nat → Nat → Nat × Chain K V
  | 0, idx => (idx, [])
  | fuel + 1, idx =>
      if active t ≤ idx then (idx, [])
      else
        match bucket t idx with
        | [] => nextBucket t fuel (idx + 1)
        | node => (idx + 1, node)

/-- `Iterator::advance`. -/
def Iterator.advance (it : Iterator T K V) : Iterator T K V :=
  match it.tablePtr with
  | none => { it with nodePtr := [] }
  | some t =>
      match it.nodePtr.tail with
      | [] =>
          let found := nextBucket active bucket t (active t - it.bucketIdx) it.bucketIdx
          { it with bucketIdx := found.1, nodePtr := found.2 }
      | node => { it with nodePtr := node }

/-- `itr_type itr(table)`, or the end iterator without a table. -/
def Iterator.new (table : Option T) : Iterator T K V := ⟨table, 0, []⟩

/-- `is_itr_valid`. -/
def Iterator.isItrValid (it : Iterator T K V) : Bool := !it.nodePtr.isEmpty

/-- `get_key_from_itr`; `none` where the shim throws. -/
def Iterator.getKeyFromItr (it : Iterator T K V) : Option K :=
  it.nodePtr.head?.map fun node => node.data.keyK

/-- The keys of a list of nodes, as the iterator reads them. -/
def keysRead (chain : Chain K V) : List (Option K) := chain.map fun node => some node.data.keyK

/-- What an iterator reads at `key`. -/
def ReadsKey (key : K) (read : Option K) : Prop :=
  ∃ k, read = some k ∧ bp.cmprKeys key k = true

theorem nextBucket_spec (t : T) (fuel idx : Nat) (hFuel : active t - idx ≤ fuel) :
    (nextBucket active bucket t fuel idx).2 ++
        scanFrom (bucket t) (active t) (nextBucket active bucket t fuel idx).1 =
      scanFrom (bucket t) (active t) idx ∧
    ((nextBucket active bucket t fuel idx).2 = [] →
      scanFrom (bucket t) (active t) idx = []) := by
  induction fuel generalizing idx with
  | zero =>
      have hEnd := scanFrom_of_ge (bucket t) (show active t ≤ idx by omega)
      exact ⟨rfl, fun _ => hEnd⟩
  | succ fuel ih =>
      rw [nextBucket]
      split
      · rename_i hEnd
        exact ⟨rfl, fun _ => scanFrom_of_ge (bucket t) hEnd⟩
      · rename_i hMore
        obtain ⟨hScan, hDone⟩ := ih (idx + 1) (by omega)
        rw [scanFrom_of_lt (bucket t) (Nat.lt_of_not_le hMore)]
        cases hChain : bucket t idx with
        | nil => exact ⟨hScan, hDone⟩
        | cons node next => exact ⟨rfl, fun h => by simp at h⟩

variable {active bucket}

/-- From a node of a chain an iterator reads the rest of the chain and then
the buckets from its bucket index on. -/
theorem Iterator.visits (it : Iterator T K V) {t : T} (hTable : it.tablePtr = some t)
    (hDone : it.nodePtr = [] → scanFrom (bucket t) (active t) it.bucketIdx = []) :
    Visits Iterator.isItrValid (Iterator.advance active bucket) Iterator.getKeyFromItr it
      (keysRead (it.nodePtr ++ scanFrom (bucket t) (active t) it.bucketIdx)) := by
  induction hLength : (it.nodePtr ++ scanFrom (bucket t) (active t) it.bucketIdx).length
    using Nat.strong_induction_on generalizing it with
  | _ length ih =>
      obtain ⟨table, idx, node⟩ := it
      obtain rfl : table = some t := hTable
      cases node with
      | nil =>
          rw [hDone rfl]
          exact .done rfl
      | cons head next =>
          rw [List.cons_append, keysRead, List.map_cons]
          have hValid : Iterator.isItrValid (⟨some t, idx, head :: next⟩ : Iterator T K V) = true := rfl
          refine Visits.step hValid ?_
          cases next with
          | nil =>
              obtain ⟨hScan, hEnd⟩ := nextBucket_spec active bucket t (active t - idx) idx
                (Nat.le_refl _)
              rw [List.nil_append, ← hScan]
              refine ih _ ?_ _ rfl (fun h => ?_) rfl
              · rw [← hLength]
                simp only [Iterator.advance, List.tail_cons, hScan, List.cons_append,
                  List.nil_append, List.length_cons]
                omega
              · have hRest := hEnd h
                rw [← hScan, List.append_eq_nil_iff] at hRest
                exact hRest.2
          | cons second rest =>
              have hShorter : (second :: rest ++ scanFrom (bucket t) (active t) idx).length <
                  length := by
                rw [← hLength]
                simp
              exact ih _ hShorter (⟨some t, idx, second :: rest⟩ : Iterator T K V) rfl
                (fun h => by simp at h) rfl

/-- A fresh iterator advanced once reads the whole table in scan order. -/
theorem Iterator.visits_begin (t : T) :
    Visits Iterator.isItrValid (Iterator.advance active bucket) Iterator.getKeyFromItr
      (Iterator.advance active bucket (Iterator.new (some t)))
      (keysRead (scanFrom (bucket t) (active t) 0)) := by
  obtain ⟨hScan, hEnd⟩ := nextBucket_spec active bucket t (active t) 0 (Nat.sub_le ..)
  have hVisits : Visits Iterator.isItrValid (Iterator.advance active bucket)
      Iterator.getKeyFromItr (Iterator.advance active bucket (Iterator.new (some t)))
      (keysRead ((Iterator.advance active bucket (Iterator.new (some t))).nodePtr ++
        scanFrom (bucket t) (active t)
          (Iterator.advance active bucket (Iterator.new (some t))).bucketIdx)) := by
    refine Iterator.visits _ rfl (fun h => ?_)
    have hRest := hEnd h
    rw [← hScan, List.append_eq_nil_iff] at hRest
    exact hRest.2
  simpa only [Iterator.advance, Iterator.new, List.tail_nil, Nat.sub_zero, hScan] using hVisits

variable {bp}

/-- Iteration from a found node resumes the scan when the bucket index is that
of the next bucket. -/
theorem Iterator.resumes {t : T} {key : K} {i : Nat} {before after : Chain K V} {node : Node K V}
    (hi : i < active t) (hSplit : bucket t i = before ++ node :: after)
    (hKey : bp.cmprKeys key node.data.keyK = true) :
    Resumes Iterator.isItrValid (Iterator.advance active bucket) Iterator.getKeyFromItr
      (Iterator.advance active bucket (Iterator.new (some t)))
      (⟨some t, i + 1, node :: after⟩ : Iterator T K V) (ReadsKey bp key) := by
  have hScan : keysRead (scanFrom (bucket t) (active t) 0) =
      keysRead ((List.range i).flatMap (bucket t) ++ before) ++
        some node.data.keyK :: keysRead (after ++ scanFrom (bucket t) (active t) (i + 1)) := by
    rw [scanFrom_split (bucket t) hi, hSplit]
    simp [keysRead]
  have hFirst : Visits Iterator.isItrValid (Iterator.advance active bucket) Iterator.getKeyFromItr
      (Iterator.advance active bucket (Iterator.new (some t)))
      (keysRead ((List.range i).flatMap (bucket t) ++ before) ++
        some node.data.keyK :: keysRead (after ++ scanFrom (bucket t) (active t) (i + 1))) :=
    hScan ▸ Iterator.visits_begin t
  have hFound : Visits Iterator.isItrValid (Iterator.advance active bucket) Iterator.getKeyFromItr
      (⟨some t, i + 1, node :: after⟩ : Iterator T K V)
      (some node.data.keyK :: keysRead (after ++ scanFrom (bucket t) (active t) (i + 1))) :=
    Iterator.visits (⟨some t, i + 1, node :: after⟩ : Iterator T K V) rfl
      (fun hNil => by simp at hNil)
  exact Resumes.of_visits ⟨node.data.keyK, rfl, hKey⟩ hFirst hFound

end Iterators

end HashBench.Tommyds
