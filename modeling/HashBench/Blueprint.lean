import HashBench.Library.Iteration
import Mathlib.Data.Multiset.AddSub
import Mathlib.Data.Quot
import Mathlib.Data.List.Induction

/-! What every table of the benchmark is given, a blueprint's hash and
comparison functions, and what every table is for: the finite set of keys
inserted and not erased since. -/
namespace HashBench

/-- A blueprint: `hash_key`, `cmpr_keys`, and the dummy value `value_type()`.
The comparison is an equivalence and equal keys hash equally. -/
structure Blueprint (K V : Type*) where
  hashKey : K → Nat
  cmprKeys : K → K → Bool
  valueType : V
  cmprKeys_refl : ∀ k, cmprKeys k k = true
  cmprKeys_symm : ∀ {k₁ k₂}, cmprKeys k₁ k₂ = true → cmprKeys k₂ k₁ = true
  cmprKeys_trans : ∀ {k₁ k₂ k₃},
    cmprKeys k₁ k₂ = true → cmprKeys k₂ k₃ = true → cmprKeys k₁ k₃ = true
  hashKey_congr : ∀ {k₁ k₂}, cmprKeys k₁ k₂ = true → hashKey k₁ = hashKey k₂

/-- One call that changes a table. -/
inductive Op (K : Type*) where
  | insert (key : K)
  | erase (key : K)
  deriving DecidableEq, Repr

/-- The key the call is given. -/
def Op.key {K : Type*} : Op K → K
  | insert k => k
  | erase k => k

namespace Blueprint

variable {K V : Type*} (bp : Blueprint K V)

/-- Keys with lawful equality compare by equality, under any hash function. -/
def ofEq [DecidableEq K] (hash : K → Nat) (value : V) : Blueprint K V where
  hashKey := hash
  cmprKeys k₁ k₂ := decide (k₁ = k₂)
  valueType := value
  cmprKeys_refl _ := decide_eq_true rfl
  cmprKeys_symm h := decide_eq_true (of_decide_eq_true h).symm
  cmprKeys_trans h h' := decide_eq_true ((of_decide_eq_true h).trans (of_decide_eq_true h'))
  hashKey_congr h := congrArg hash (of_decide_eq_true h)

theorem cmprKeys_comm (k₁ k₂ : K) : bp.cmprKeys k₁ k₂ = bp.cmprKeys k₂ k₁ := by
  rw [Bool.eq_iff_iff]
  exact ⟨bp.cmprKeys_symm, bp.cmprKeys_symm⟩

/-- The keys a table cannot tell apart. -/
def setoid : Setoid K where
  r k₁ k₂ := bp.cmprKeys k₁ k₂ = true
  iseqv := ⟨bp.cmprKeys_refl, bp.cmprKeys_symm, bp.cmprKeys_trans⟩

/-- A key up to `cmpr_keys`. -/
abbrev Class : Type _ := Quotient bp.setoid

def cls (k : K) : bp.Class := Quotient.mk bp.setoid k

theorem cls_eq_iff {k₁ k₂ : K} : bp.cls k₁ = bp.cls k₂ ↔ bp.cmprKeys k₁ k₂ = true :=
  Quotient.eq (r := bp.setoid)

/-- The effect of one call on the set of keys present. -/
def apply (present : K → Bool) : Op K → K → Bool
  | .insert key => fun k => bp.cmprKeys key k || present k
  | .erase key => fun k => !bp.cmprKeys key k && present k

/-- The keys inserted and not erased since, after these calls in this order. -/
def present (ops : List (Op K)) : K → Bool :=
  ops.foldl bp.apply (fun _ => false)

@[simp] theorem present_nil (k : K) : bp.present [] k = false := rfl

theorem present_concat (ops : List (Op K)) (op : Op K) :
    bp.present (ops ++ [op]) = bp.apply (bp.present ops) op := by
  simp [present, List.foldl_append]

/-- The stored classes are exactly those of the present keys. -/
def Holds (stored : Multiset bp.Class) (present : K → Bool) : Prop :=
  ∀ k, present k = true ↔ bp.cls k ∈ stored

namespace Holds

variable {bp} {stored : Multiset bp.Class} {present : K → Bool}

/-- Without duplicates the stored classes are determined by the present keys. -/
theorem unique {stored' : Multiset bp.Class} (h : bp.Holds stored present)
    (h' : bp.Holds stored' present) (hNodup : stored.Nodup) (hNodup' : stored'.Nodup) :
    stored = stored' := by
  refine (hNodup.ext hNodup').mpr fun c => ?_
  obtain ⟨k, rfl⟩ : ∃ k, bp.cls k = c := Quotient.exists_rep c
  rw [← h k, ← h' k]

theorem empty : bp.Holds 0 (fun _ => false) := fun _ => by simp

/-- Storing a new key is an insertion. -/
theorem insert_new (h : bp.Holds stored present) (key : K) :
    bp.Holds (bp.cls key ::ₘ stored) (bp.apply present (.insert key)) := by
  intro k
  rw [apply, Bool.or_eq_true, h k, Multiset.mem_cons, cls_eq_iff, bp.cmprKeys_comm]

/-- Inserting a key that is stored changes nothing. -/
theorem insert_old (h : bp.Holds stored present) {key : K} (hKey : bp.cls key ∈ stored) :
    bp.Holds stored (bp.apply present (.insert key)) := by
  intro k
  rw [apply, Bool.or_eq_true, h k]
  refine ⟨fun hk => hk.elim (fun hEq => ?_) id, Or.inr⟩
  rwa [← bp.cls_eq_iff.mpr hEq]

/-- Erasing a key that is not stored changes nothing. -/
theorem erase_absent (h : bp.Holds stored present) {key : K} (hKey : bp.cls key ∉ stored) :
    bp.Holds stored (bp.apply present (.erase key)) := by
  intro k
  rw [apply, Bool.and_eq_true, h k]
  refine ⟨And.right, fun hk => ⟨?_, hk⟩⟩
  rw [Bool.not_eq_true']
  refine Bool.eq_false_iff.mpr fun hEq => hKey ?_
  rwa [bp.cls_eq_iff.mpr hEq]

/-- Taking out the one stored copy of a key is an erasure. -/
theorem erase_stored {rest : Multiset bp.Class} {key : K}
    (h : bp.Holds (bp.cls key ::ₘ rest) present) (hNodup : (bp.cls key ::ₘ rest).Nodup) :
    bp.Holds rest (bp.apply present (.erase key)) := by
  intro k
  rw [apply, Bool.and_eq_true, h k, Multiset.mem_cons, Bool.not_eq_true', Bool.eq_false_iff,
    ne_eq, ← bp.cls_eq_iff]
  constructor
  · rintro ⟨hNe, hEq | hMem⟩
    · exact absurd hEq.symm hNe
    · exact hMem
  · intro hMem
    refine ⟨fun hEq => (Multiset.nodup_cons.mp hNodup).1 ?_, Or.inr hMem⟩
    rwa [hEq]

end Holds

/-- A listing of the present keys, each listed once. -/
def Enumerates (order : List K) (present : K → Bool) : Prop :=
  order.Pairwise (fun k₁ k₂ => bp.cmprKeys k₁ k₂ = false) ∧
    ∀ k, present k = true ↔ ∃ k' ∈ order, bp.cmprKeys k k' = true

theorem enumerates_of_holds {order : List K} {present : K → Bool}
    (hHolds : bp.Holds (order.map bp.cls : List bp.Class) present)
    (hNodup : (order.map bp.cls).Nodup) : bp.Enumerates order present := by
  constructor
  · rw [List.Nodup, List.pairwise_map] at hNodup
    refine hNodup.imp fun hNe => Bool.eq_false_iff.mpr fun hEq => hNe ?_
    exact bp.cls_eq_iff.mpr hEq
  · intro k
    rw [hHolds k, Multiset.mem_coe, List.mem_map]
    constructor
    · rintro ⟨k', hMem, hEq⟩
      exact ⟨k', hMem, bp.cls_eq_iff.mp hEq.symm⟩
    · rintro ⟨k', hMem, hEq⟩
      exact ⟨k', hMem, (bp.cls_eq_iff.mpr hEq).symm⟩

theorem Enumerates.nodup {order : List K} {present : K → Bool} (h : bp.Enumerates order present) :
    order.Nodup :=
  h.1.imp fun {k₁ k₂} hNe hEq => by simp [hEq, bp.cmprKeys_refl] at hNe

theorem Enumerates.nodup_classes {order : List K} {present : K → Bool}
    (h : bp.Enumerates order present) : (order.map bp.cls).Nodup := by
  rw [List.Nodup, List.pairwise_map]
  refine h.1.imp fun hNe hEq => ?_
  rw [bp.cls_eq_iff.mp hEq] at hNe
  cases hNe

/-- A listing has as many keys as are stored. -/
theorem Enumerates.length_eq {order : List K} {present : K → Bool} {stored : Multiset bp.Class}
    (h : bp.Enumerates order present) (hHolds : bp.Holds stored present) (hNodup : stored.Nodup) :
    order.length = stored.card := by
  have hOrder : bp.Holds (order.map bp.cls : List bp.Class) present := by
    intro k
    rw [h.2 k, Multiset.mem_coe, List.mem_map]
    simp only [← bp.cls_eq_iff, eq_comm]
  have hSame := hOrder.unique hHolds h.nodup_classes hNodup
  rw [← hSame, Multiset.coe_card, List.length_map]

/-- The stored classes can be listed by keys. -/
theorem Holds.exists_order {stored : Multiset bp.Class} {present : K → Bool}
    (h : bp.Holds stored present) (hNodup : stored.Nodup) :
    ∃ order, bp.Enumerates order present ∧ order.length = stored.card := by
  induction stored using Quot.inductionOn with
  | h classes =>
      have hOut : (classes.map Quotient.out).map bp.cls = classes := by
        rw [List.map_map]
        exact List.map_id'' (fun c => Quotient.out_eq c) classes
      refine ⟨classes.map Quotient.out, bp.enumerates_of_holds ?_ ?_, List.length_map ..⟩
      · rw [hOut]
        exact h
      · rw [hOut]
        exact hNodup

/-- A key that is present is that of a call. -/
theorem exists_call_of_present {ops : List (Op K)} {k : K} (h : bp.present ops k = true) :
    ∃ op ∈ ops, bp.cmprKeys op.key k = true := by
  induction ops using List.reverseRecOn with
  | nil => cases h
  | append_singleton ops op ih =>
      have hEarlier (hPresent : bp.present ops k = true) :
          ∃ op' ∈ ops ++ [op], bp.cmprKeys op'.key k = true := by
        obtain ⟨op', hOp, hEq⟩ := ih hPresent
        exact ⟨op', List.mem_append_left _ hOp, hEq⟩
      rw [present_concat] at h
      cases op with
      | insert key =>
          rcases Bool.or_eq_true_iff.mp h with hEq | hPresent
          · exact ⟨.insert key, List.mem_append_right _ (List.mem_singleton_self _), hEq⟩
          · exact hEarlier hPresent
      | erase key => exact hEarlier (Bool.and_eq_true_iff.mp h).2

/-- There are no more keys than calls. -/
theorem Enumerates.length_le {ops : List (Op K)} {order : List K}
    (h : bp.Enumerates order (bp.present ops)) : order.length ≤ ops.length := by
  have hNodup := h.nodup_classes
  have hSubset : order.map bp.cls ⊆ ops.map fun op => bp.cls op.key := by
    intro c hc
    obtain ⟨k, hk, rfl⟩ := List.mem_map.mp hc
    obtain ⟨op, hOp, hEq⟩ :=
      bp.exists_call_of_present ((h.2 k).mpr ⟨k, hk, bp.cmprKeys_refl k⟩)
    exact List.mem_map.mpr ⟨op, hOp, bp.cls_eq_iff.mpr hEq⟩
  simpa using (hNodup.subperm hSubset).length_le

/-- Fewer than `bound` keys are present after each of these calls. -/
def Fewer (bound : Nat) (ops : List (Op K)) : Prop :=
  ∀ before after, ops = before ++ after →
    ∀ order, bp.Enumerates order (bp.present before) → order.length < bound

namespace Fewer

variable {bp} {bound : Nat} {ops before after : List (Op K)}

theorem left (h : bp.Fewer bound (before ++ after)) : bp.Fewer bound before := by
  intro first rest hSplit
  refine h first (rest ++ after) ?_
  rw [← List.append_assoc, ← hSplit]

theorem of_length (h : ops.length < bound) : bp.Fewer bound ops := by
  rintro before after rfl order hOrder
  refine (hOrder.length_le).trans_lt (Nat.lt_of_le_of_lt ?_ h)
  exact (List.prefix_append ..).length_le

theorem mono (h : bp.Fewer bound ops) {bound' : Nat} (hLe : bound ≤ bound') :
    bp.Fewer bound' ops :=
  fun before after hSplit order hOrder => (h before after hSplit order hOrder).trans_le hLe

theorem card_lt (h : bp.Fewer bound ops) {stored : Multiset bp.Class}
    (hHolds : bp.Holds stored (bp.present ops)) (hNodup : stored.Nodup) : stored.card < bound := by
  obtain ⟨order, hOrder, hLength⟩ := Holds.exists_order bp hHolds hNodup
  exact hLength ▸ h ops [] (List.append_nil ops).symm order hOrder

end Fewer

open Iteration in
/-- Cells of which the used ones hold every present key, and each key once, list
the present keys. -/
theorem enumerates_cells (used : Nat → Bool) (n : Nat) (key : Nat → Option K)
    {present : K → Bool} (hKey : ∀ p < n, used p = true → ∃ k, key p = some k)
    (hOnce : ∀ p < n, ∀ q < n, used p = true → used q = true → ∀ k k', key p = some k →
      key q = some k' → bp.cmprKeys k k' = true → p = q)
    (hPresent : ∀ k, present k = true ↔
      ∃ p < n, used p = true ∧ ∃ k', key p = some k' ∧ bp.cmprKeys k' k = true) :
    ∃ order, bp.Enumerates order present ∧ order.map some = (usedFrom used n 0).map key := by
  refine ⟨(usedFrom used n 0).filterMap key, ⟨?_, fun k => ?_⟩, ?_⟩
  · rw [List.pairwise_filterMap]
    refine (nodup_usedFrom 0).imp_of_mem fun {p q} hp hq hNe k hk k' hk' => ?_
    obtain ⟨_, hp, hUsed⟩ := mem_usedFrom.mp hp
    obtain ⟨_, hq, hUsed'⟩ := mem_usedFrom.mp hq
    exact Bool.eq_false_iff.mpr fun hEq => hNe (hOnce p hp q hq hUsed hUsed' k k' hk hk' hEq)
  · rw [hPresent]
    simp only [List.mem_filterMap, mem_usedFrom, Nat.zero_le, true_and]
    constructor
    · rintro ⟨p, hp, hUsed, k', hk', hEq⟩
      exact ⟨k', ⟨p, ⟨hp, hUsed⟩, hk'⟩, bp.cmprKeys_symm hEq⟩
    · rintro ⟨k', ⟨p, ⟨hp, hUsed⟩, hk'⟩, hEq⟩
      exact ⟨p, hp, hUsed, k', hk', bp.cmprKeys_symm hEq⟩
  · rw [List.map_filterMap_some_eq_filter_map_isSome, List.filter_eq_self]
    intro found hFound
    obtain ⟨p, hMem, rfl⟩ := List.mem_map.mp hFound
    obtain ⟨_, hp, hUsed⟩ := mem_usedFrom.mp hMem
    obtain ⟨k, hk⟩ := hKey p hp hUsed
    rw [hk]
    rfl

open Iteration in
/-- Cells that all have a key. -/
theorem enumerates_used (used : Nat → Bool) (n : Nat) (key : Nat → K) {present : K → Bool}
    (hOnce : ∀ p < n, ∀ q < n, used p = true → used q = true →
      bp.cmprKeys (key p) (key q) = true → p = q)
    (hPresent : ∀ k, present k = true ↔ ∃ p < n, used p = true ∧ bp.cmprKeys (key p) k = true) :
    bp.Enumerates ((usedFrom used n 0).map key) present := by
  obtain ⟨order, hOrder, hEq⟩ := bp.enumerates_cells used n (fun p => some (key p))
    (fun p _ _ => ⟨_, rfl⟩)
    (fun p hp q hq hUsed hUsed' k k' hk hk' hMatch => by
      obtain rfl := Option.some.inj hk
      obtain rfl := Option.some.inj hk'
      exact hOnce p hp q hq hUsed hUsed' hMatch)
    (fun k => (hPresent k).trans (by simp))
  have hList : order = (usedFrom used n 0).map key := by
    refine List.map_injective_iff.mpr (fun _ _ => Option.some.inj) ?_
    rw [hEq, List.map_map]
    rfl
  exact hList ▸ hOrder

end Blueprint

end HashBench
