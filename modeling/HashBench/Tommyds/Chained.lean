import HashBench.Tommyds.Chain

/-! The invariant shared by the TommyDS tables: every node is chained in the
bucket its stored hash addresses, and the chained keys are exactly the keys
present, each chained once. How a hash addresses a bucket is a parameter. -/
namespace HashBench.Tommyds

open Iteration

variable {K V : Type*} (bp : Blueprint K V)

/-- The residue of a hash modulo the doubled size is one of two buckets. -/
theorem mod_pow_succ (x k : Nat) :
    x % 2 ^ (k + 1) = x % 2 ^ k ∨ x % 2 ^ (k + 1) = x % 2 ^ k + 2 ^ k := by
  rw [pow_succ, Nat.mod_mul]
  rcases Nat.mod_two_eq_zero_or_one (x / 2 ^ k) with h | h
  · exact Or.inl (by simp [h])
  · exact Or.inr (by simp [h])

/-- The chained keys, up to `cmpr_keys`. -/
def classes (bucket : Nat → Chain K V) (n : Nat) : Multiset bp.Class :=
  (nodes bucket n).map fun node => bp.cls node.data.keyK

theorem classes_update (bucket : Nat → Chain K V) {n i : Nat} (hi : i < n) (chain : Chain K V) :
    classes bp (Function.update bucket i chain) n +
        ((bucket i).map fun node => bp.cls node.data.keyK : List bp.Class) =
      classes bp bucket n + (chain.map fun node => bp.cls node.data.keyK : List bp.Class) := by
  have h := congrArg (Multiset.map fun node => bp.cls node.data.keyK)
    (nodes_update bucket hi chain)
  simpa only [Multiset.map_add, Multiset.map_coe, classes] using h

/-- The first `n` buckets store the present keys under the addressing `addr`. -/
structure Chained (bucket : Nat → Chain K V) (n : Nat) (addr : Nat → Nat)
    (present : K → Bool) : Prop where
  addr_lt : ∀ hash, addr hash < n
  placed : ∀ i < n, ∀ node ∈ bucket i, addr node.index = i
  hashed : ∀ i < n, ∀ node ∈ bucket i, node.index = hashOf bp node.data.keyK
  nodup : (classes bp bucket n).Nodup
  holds : bp.Holds (classes bp bucket n) present

variable {bp} {bucket bucket' : Nat → Chain K V} {n : Nat} {addr : Nat → Nat}
  {present : K → Bool}

theorem isMatch_of_cmprKeys {key : K} {node : Node K V}
    (hIndex : node.index = hashOf bp node.data.keyK)
    (hKey : bp.cmprKeys key node.data.keyK = true) : isMatch bp key node = true := by
  simp [isMatch, hIndex, hKey, hashOf, bp.hashKey_congr hKey]

theorem cmprKeys_of_isMatch {key : K} {node : Node K V} (h : isMatch bp key node = true) :
    node.index = hashOf bp key ∧ bp.cmprKeys key node.data.keyK = true := by
  simpa [isMatch] using h

theorem nodes_eq_zero (hNil : ∀ i < n, bucket i = []) : nodes bucket n = 0 :=
  Finset.sum_eq_zero fun i hi => by rw [hNil i (Finset.mem_range.mp hi), Multiset.coe_nil]

namespace Chained

/-- Empty buckets store the empty set. -/
theorem empty (hNil : ∀ i < n, bucket i = []) (hAddr : ∀ hash, addr hash < n) :
    Chained bp bucket n addr (fun _ => false) := by
  have hClasses : classes bp bucket n = 0 := by
    rw [classes, nodes_eq_zero hNil, Multiset.map_zero]
  refine ⟨hAddr, fun i hi node hNode => ?_, fun i hi node hNode => ?_, ?_, ?_⟩
  · simp [hNil i hi] at hNode
  · simp [hNil i hi] at hNode
  · rw [hClasses]
    exact Multiset.nodup_zero
  · rw [hClasses]
    exact Blueprint.Holds.empty

variable (h : Chained bp bucket n addr present)
include h

/-- A chain walk looks in the right bucket: it either meets the one node of a
present key, or the key is absent. -/
theorem walk (key : K) :
    (∃ before node after, bucket (addr (hashOf bp key)) = before ++ node :: after ∧
        node.index = hashOf bp key ∧ bp.cmprKeys key node.data.keyK = true ∧
        present key = true ∧
        chainFind bp key (bucket (addr (hashOf bp key))) = node :: after ∧
        chainUpdate bp key (bucket (addr (hashOf bp key))) = some (before ++
          { node with data := { node.data with valueV := bp.valueType } } :: after) ∧
        chainRemove bp key (bucket (addr (hashOf bp key))) = some (before ++ after)) ∨
      (present key = false ∧ bp.cls key ∉ classes bp bucket n ∧
        chainFind bp key (bucket (addr (hashOf bp key))) = [] ∧
        chainUpdate bp key (bucket (addr (hashOf bp key))) = none ∧
        chainRemove bp key (bucket (addr (hashOf bp key))) = none) := by
  have hBound := h.addr_lt (hashOf bp key)
  rcases chainFind_split bp key (bucket (addr (hashOf bp key))) with
    ⟨before, node, after, hSplit, hMatch, hWalks⟩ | ⟨hNone, hWalks⟩
  · obtain ⟨hIndex, hKey⟩ := cmprKeys_of_isMatch hMatch
    have hMem : node ∈ nodes bucket n := mem_nodes.mpr ⟨_, hBound, by simp [hSplit]⟩
    refine Or.inl ⟨before, node, after, hSplit, hIndex, hKey, (h.holds key).mpr ?_, hWalks⟩
    rw [bp.cls_eq_iff.mpr hKey]
    exact Multiset.mem_map_of_mem _ hMem
  · have hAbsent : bp.cls key ∉ classes bp bucket n := by
      intro hMem
      obtain ⟨node, hNode, hEq⟩ := Multiset.mem_map.mp hMem
      obtain ⟨i, hi, hIn⟩ := mem_nodes.mp hNode
      have hIndex := h.hashed i hi node hIn
      have hKey := bp.cmprKeys_symm (bp.cls_eq_iff.mp hEq)
      have hMatch := isMatch_of_cmprKeys hIndex hKey
      have hAddr : addr (hashOf bp key) = i := by
        rw [← (cmprKeys_of_isMatch hMatch).1]
        exact h.placed i hi node hIn
      rw [← hAddr] at hIn
      simp [hNone node hIn] at hMatch
    refine Or.inr ⟨Bool.eq_false_iff.mpr fun hPresent => hAbsent ?_, hAbsent, hWalks⟩
    exact (h.holds key).mp hPresent

/-- Redistributing the same nodes under a new addressing keeps the keys. -/
theorem rehash {n' : Nat} {addr' : Nat → Nat} (hNodes : nodes bucket' n' = nodes bucket n)
    (hAddr : ∀ hash, addr' hash < n')
    (hPlaced : ∀ i < n', ∀ node ∈ bucket' i, addr' node.index = i) :
    Chained bp bucket' n' addr' present := by
  refine ⟨hAddr, hPlaced, fun i hi node hNode => ?_, ?_, ?_⟩
  · have hMem : node ∈ nodes bucket n := hNodes ▸ mem_nodes.mpr ⟨i, hi, hNode⟩
    obtain ⟨j, hj, hIn⟩ := mem_nodes.mp hMem
    exact h.hashed j hj node hIn
  · rw [classes, hNodes]
    exact h.nodup
  · rw [classes, hNodes]
    exact h.holds

/-- A chain whose new nodes carry its address may replace the old one. -/
private theorem replace {i : Nat} {chain : Chain K V} {present' : K → Bool}
    (hPlaced : ∀ node ∈ chain, addr node.index = i)
    (hHashed : ∀ node ∈ chain, node.index = hashOf bp node.data.keyK)
    (hNodup : (classes bp (Function.update bucket i chain) n).Nodup)
    (hHolds : bp.Holds (classes bp (Function.update bucket i chain) n) present') :
    Chained bp (Function.update bucket i chain) n addr present' := by
  refine ⟨h.addr_lt, fun p hp node hNode => ?_, fun p hp node hNode => ?_, hNodup, hHolds⟩
  · by_cases hEq : p = i
    · subst hEq
      rw [Function.update_self] at hNode
      exact hPlaced node hNode
    · rw [Function.update_of_ne hEq] at hNode
      exact h.placed p hp node hNode
  · by_cases hEq : p = i
    · subst hEq
      rw [Function.update_self] at hNode
      exact hHashed node hNode
    · rw [Function.update_of_ne hEq] at hNode
      exact h.hashed p hp node hNode

/-- Updating the value of a present key in place. -/
theorem update {key : K} {before after : Chain K V} {node : Node K V} {value : V}
    (hSplit : bucket (addr (hashOf bp key)) = before ++ node :: after)
    (hKey : bp.cmprKeys key node.data.keyK = true) :
    Chained bp (Function.update bucket (addr (hashOf bp key))
        (before ++ { node with data := { node.data with valueV := value } } :: after)) n addr
      (bp.apply present (.insert key)) := by
  have hBound := h.addr_lt (hashOf bp key)
  have hOld : ∀ x ∈ before ++ { node with data := { node.data with valueV := value } } :: after,
      ∃ y ∈ bucket (addr (hashOf bp key)), x.index = y.index ∧ x.data.keyK = y.data.keyK := by
    intro x hx
    rw [hSplit]
    rcases List.mem_append.mp hx with hBefore | hRest
    · exact ⟨x, List.mem_append_left _ hBefore, rfl, rfl⟩
    · rcases List.mem_cons.mp hRest with rfl | hAfter
      · exact ⟨node, by simp, rfl, rfl⟩
      · exact ⟨x, List.mem_append_right _ (List.mem_cons_of_mem _ hAfter), rfl, rfl⟩
  have hClasses : classes bp (Function.update bucket (addr (hashOf bp key))
      (before ++ { node with data := { node.data with valueV := value } } :: after)) n =
      classes bp bucket n := by
    refine add_right_cancel ((classes_update bp bucket hBound _).trans ?_)
    rw [hSplit, List.map_append, List.map_append, List.map_cons, List.map_cons]
  refine h.replace (fun x hx => ?_) (fun x hx => ?_) (hClasses ▸ h.nodup) ?_
  · obtain ⟨y, hy, hIndex, _⟩ := hOld x hx
    rw [hIndex]
    exact h.placed _ hBound y hy
  · obtain ⟨y, hy, hIndex, hKeys⟩ := hOld x hx
    rw [hIndex, hKeys]
    exact h.hashed _ hBound y hy
  · rw [hClasses]
    refine h.holds.insert_old ?_
    rw [bp.cls_eq_iff.mpr hKey]
    exact Multiset.mem_map_of_mem _ (mem_nodes.mpr ⟨_, hBound, by simp [hSplit]⟩)

/-- Appending a node for an absent key. -/
theorem append {key : K} (value : V) (hAbsent : bp.cls key ∉ classes bp bucket n) :
    Chained bp (Function.update bucket (addr (hashOf bp key))
        (bucket (addr (hashOf bp key)) ++ [⟨hashOf bp key, ⟨key, value⟩⟩])) n addr
      (bp.apply present (.insert key)) := by
  have hBound := h.addr_lt (hashOf bp key)
  have hClasses : classes bp (Function.update bucket (addr (hashOf bp key))
      (bucket (addr (hashOf bp key)) ++ [⟨hashOf bp key, ⟨key, value⟩⟩])) n =
      bp.cls key ::ₘ classes bp bucket n := by
    refine add_right_cancel ((classes_update bp bucket hBound _).trans ?_)
    rw [List.map_append, ← Multiset.coe_add, ← add_assoc, add_right_comm]
    congr 1
    rw [add_comm]
    rfl
  refine h.replace (fun x hx => ?_) (fun x hx => ?_) ?_ ?_
  · rcases List.mem_append.mp hx with hOld | hNew
    · exact h.placed _ hBound x hOld
    · rw [List.mem_singleton.mp hNew]
  · rcases List.mem_append.mp hx with hOld | hNew
    · exact h.hashed _ hBound x hOld
    · rw [List.mem_singleton.mp hNew]
  · rw [hClasses]
    exact Multiset.nodup_cons.mpr ⟨hAbsent, h.nodup⟩
  · rw [hClasses]
    exact h.holds.insert_new key

/-- Unlinking the node of a present key. -/
theorem unlink {key : K} {before after : Chain K V} {node : Node K V}
    (hSplit : bucket (addr (hashOf bp key)) = before ++ node :: after)
    (hKey : bp.cmprKeys key node.data.keyK = true) :
    Chained bp (Function.update bucket (addr (hashOf bp key)) (before ++ after)) n addr
      (bp.apply present (.erase key)) := by
  have hBound := h.addr_lt (hashOf bp key)
  have hSub : ∀ x ∈ before ++ after, x ∈ bucket (addr (hashOf bp key)) := by
    intro x hx
    rw [hSplit]
    rcases List.mem_append.mp hx with hBefore | hAfter
    · exact List.mem_append_left _ hBefore
    · exact List.mem_append_right _ (List.mem_cons_of_mem _ hAfter)
  have hClasses : classes bp bucket n = bp.cls key ::ₘ
      classes bp (Function.update bucket (addr (hashOf bp key)) (before ++ after)) n := by
    have hEq := classes_update bp bucket hBound (before ++ after)
    rw [hSplit, List.map_append, List.map_append, List.map_cons, ← bp.cls_eq_iff.mpr hKey,
      ← Multiset.coe_add, ← Multiset.coe_add, ← Multiset.cons_coe, Multiset.add_cons,
      Multiset.add_cons, ← Multiset.cons_add] at hEq
    exact (add_right_cancel hEq).symm
  have hNodup := hClasses ▸ h.nodup
  refine h.replace (fun x hx => h.placed _ hBound x (hSub x hx))
    (fun x hx => h.hashed _ hBound x (hSub x hx)) (Multiset.nodup_cons.mp hNodup).2 ?_
  exact (hClasses ▸ h.holds).erase_stored hNodup

/-- Erasing an absent key is no change. -/
theorem skip {key : K} (hAbsent : bp.cls key ∉ classes bp bucket n) :
    Chained bp bucket n addr (bp.apply present (.erase key)) :=
  ⟨h.addr_lt, h.placed, h.hashed, h.nodup, h.holds.erase_absent hAbsent⟩

/-- The scan lists the present keys, each once. -/
theorem enumerates :
    bp.Enumerates ((scanFrom bucket n 0).map fun node => node.data.keyK) present := by
  have hScan : (((scanFrom bucket n 0).map fun node => node.data.keyK).map bp.cls :
      Multiset bp.Class) = classes bp bucket n := by
    rw [classes, ← coe_scanFrom, Multiset.map_coe, List.map_map]
    rfl
  refine bp.enumerates_of_holds (hScan ▸ h.holds) ?_
  rw [← Multiset.coe_nodup, hScan]
  exact h.nodup

end Chained

/-- Keys that are read without a throw. -/
theorem keysRead_eq (chain : Chain K V) :
    keysRead chain = (chain.map fun node => node.data.keyK).map some := by
  rw [keysRead, List.map_map]
  rfl

end HashBench.Tommyds
