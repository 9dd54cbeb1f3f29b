import HashBench.MlibDict.Index

/-! The entries of a dictionary: each is referred to by one slot of the index or
lies on the freelist, and the pairs store each present key once. -/
namespace HashBench.MlibDict

open Search OpenAddressing Memory

variable {K V : Type}

/-- The entries of the freelist from `d` on. -/
def FreeChain (cell : Nat → Freelist K V) : List Nat → Nat → Prop
  | [], d => d = 0
  | e :: rest, d => d = e ∧ e ≠ 0 ∧ ∃ next, cell e = .freelist next ∧ FreeChain cell rest next

/-- Entry `d` is a pair with this key. -/
def KeyAt (cell : Nat → Freelist K V) (d : Nat) (key : K) : Prop :=
  ∃ value, cell d = .pair key value

/-- The entries below `freelistCount` are those that the slots `stored` refer
to and those of the list `free`. -/
structure Entries (bp : Blueprint K V) (cell : Nat → Freelist K V) (first freelistCount : Nat)
    (stored : Multiset IndexHash) (free : List Nat) (present : K → Bool) : Prop where
  entry : ∀ e ∈ stored, ∃ key, KeyAt cell e.index key ∧ e.hash = hashOf bp key
  chain : FreeChain cell free first
  partition : ∃ m, freelistCount = m + 2 ∧
    stored.map IndexHash.index + (free : Multiset Nat) = (Multiset.range m).map (· + 2)
  present_iff : ∀ k, present k = true ↔
    ∃ e ∈ stored, ∃ k', KeyAt cell e.index k' ∧ bp.cmprKeys k' k = true
  distinct : ∀ e ∈ stored, ∀ e' ∈ stored, ∀ k k', KeyAt cell e.index k → KeyAt cell e'.index k' →
    bp.cmprKeys k k' = true → e = e'

theorem KeyAt.unique {cell : Nat → Freelist K V} {d : Nat} {k k' : K} (h : KeyAt cell d k)
    (h' : KeyAt cell d k') : k = k' := by
  obtain ⟨v, hv⟩ := h
  obtain ⟨v', hv'⟩ := h'
  rw [hv] at hv'
  exact (Freelist.pair.inj hv').1

theorem KeyAt.update_of_ne {cell : Nat → Freelist K V} {d d' : Nat} {s : Freelist K V}
    (hNe : d ≠ d') {k : K} : KeyAt (Function.update cell d' s) d k ↔ KeyAt cell d k := by
  rw [KeyAt, KeyAt, Function.update_of_ne hNe]

theorem FreeChain.update {cell : Nat → Freelist K V} {free : List Nat} {first d : Nat}
    (h : FreeChain cell free first) (hd : d ∉ free) (s : Freelist K V) :
    FreeChain (Function.update cell d s) free first := by
  induction free generalizing first with
  | nil => exact h
  | cons e rest ih =>
      obtain ⟨rfl, hZero, next, hCell, hRest⟩ := h
      have hNe : first ≠ d := fun hEq => hd (hEq ▸ List.mem_cons_self)
      exact ⟨rfl, hZero, next, (Function.update_of_ne hNe ..).trans hCell,
        ih hRest fun hMem => hd (List.mem_cons_of_mem first hMem)⟩

namespace Entries

variable {bp : Blueprint K V} {cell : Nat → Freelist K V} {first freelistCount : Nat}
  {stored : Multiset IndexHash} {free : List Nat} {present : K → Bool}

theorem nodup (h : Entries bp cell first freelistCount stored free present) :
    (stored.map IndexHash.index + (free : Multiset Nat)).Nodup := by
  obtain ⟨m, _, hEq⟩ := h.partition
  rw [hEq]
  exact (Multiset.nodup_range m).map (add_left_injective 2)

theorem mem_iff (h : Entries bp cell first freelistCount stored free present) {d : Nat} :
    2 ≤ d ∧ d < freelistCount ↔ (∃ e ∈ stored, e.index = d) ∨ d ∈ free := by
  obtain ⟨m, hm, hEq⟩ := h.partition
  have hMem : d ∈ stored.map IndexHash.index + (free : Multiset Nat) ↔
      d ∈ (Multiset.range m).map (· + 2) := by rw [hEq]
  rw [Multiset.mem_add, Multiset.mem_map, Multiset.mem_coe, Multiset.mem_map] at hMem
  rw [hMem]
  simp only [Multiset.mem_range]
  constructor
  · rintro ⟨hLow, hHigh⟩
    exact ⟨d - 2, by omega, by omega⟩
  · rintro ⟨i, hi, rfl⟩
    omega

/-- The freelist and the slots share no entry. -/
theorem index_notMem_free (h : Entries bp cell first freelistCount stored free present)
    {e : IndexHash} (he : e ∈ stored) : e.index ∉ free := fun hFree =>
  (Multiset.disjoint_left.mp (Multiset.nodup_add.mp h.nodup).2.2)
    (Multiset.mem_map_of_mem IndexHash.index he) hFree

/-- Without a freelist the next entry is past all slots' entries. -/
theorem freelistCount_eq (h : Entries bp cell first freelistCount stored free present) :
    freelistCount = stored.card + free.length + 2 := by
  obtain ⟨m, rfl, hEq⟩ := h.partition
  have hCard := congrArg Multiset.card hEq
  simp only [Multiset.card_add, Multiset.card_map, Multiset.coe_card, Multiset.card_range] at hCard
  rw [hCard]

/-- A pair with a new key, in an entry that neither a slot nor the freelist
refers to. -/
theorem add (h : Entries bp cell first freelistCount stored free present) {key : K} {value : V}
    {d first' freelistCount' : Nat} {free' : List Nat} (hAbsent : present key = false)
    (hChain : FreeChain cell free' first') (hNew : d ∉ free') (hFresh : ∀ e ∈ stored, e.index ≠ d)
    (hPartition : ∃ m, freelistCount' = m + 2 ∧ d ::ₘ (stored.map IndexHash.index +
      (free' : Multiset Nat)) = (Multiset.range m).map (· + 2)) :
    Entries bp (Function.update cell d (.pair key value)) first' freelistCount'
      (⟨d, hashOf bp key⟩ ::ₘ stored) free' (bp.apply present (.insert key)) := by
  have hOld {e : IndexHash} (he : e ∈ stored) {k : K} :
      KeyAt (Function.update cell d (.pair key value)) e.index k ↔ KeyAt cell e.index k :=
    KeyAt.update_of_ne (hFresh e he)
  have hSelf : KeyAt (Function.update cell d (.pair key value)) d key :=
    ⟨value, Function.update_self ..⟩
  have hNone {e : IndexHash} (he : e ∈ stored) {k : K} (hKey : KeyAt cell e.index k) :
      bp.cmprKeys k key ≠ true := fun hEq => by
    have hPresent := (h.present_iff key).mpr ⟨e, he, k, hKey, hEq⟩
    rw [hAbsent] at hPresent
    cases hPresent
  refine ⟨fun e he => ?_, hChain.update hNew _, ?_, fun k => ?_, fun e he e' he' k k' hk hk' hEq => ?_⟩
  · rcases Multiset.mem_cons.mp he with rfl | he
    · exact ⟨key, hSelf, rfl⟩
    · obtain ⟨k, hKey, hHash⟩ := h.entry e he
      exact ⟨k, (hOld he).mpr hKey, hHash⟩
  · simpa only [Multiset.map_cons, Multiset.cons_add] using hPartition
  · rw [Blueprint.apply, Bool.or_eq_true, h.present_iff]
    constructor
    · rintro (hEq | ⟨e, he, k', hKey, hEq⟩)
      · exact ⟨_, Multiset.mem_cons_self .., key, hSelf, hEq⟩
      · exact ⟨e, Multiset.mem_cons_of_mem he, k', (hOld he).mpr hKey, hEq⟩
    · rintro ⟨e, he, k', hKey, hEq⟩
      rcases Multiset.mem_cons.mp he with rfl | he
      · exact Or.inl (hSelf.unique hKey ▸ hEq)
      · exact Or.inr ⟨e, he, k', (hOld he).mp hKey, hEq⟩
  · rcases Multiset.mem_cons.mp he with rfl | he <;> rcases Multiset.mem_cons.mp he' with rfl | he'
    · rfl
    · rw [← hSelf.unique hk] at hEq
      exact absurd (bp.cmprKeys_symm hEq) (hNone he' ((hOld he').mp hk'))
    · rw [← hSelf.unique hk'] at hEq
      exact absurd hEq (hNone he ((hOld he).mp hk))
    · exact h.distinct e he e' he' k k' ((hOld he).mp hk) ((hOld he').mp hk') hEq

/-- A new value for a key that is stored. -/
theorem assign (h : Entries bp cell first freelistCount stored free present) {e : IndexHash}
    (he : e ∈ stored) {k key : K} (hKey : KeyAt cell e.index k) (hEq : bp.cmprKeys k key = true)
    (value : V) :
    Entries bp (Function.update cell e.index (.pair k value)) first freelistCount stored free
      (bp.apply present (.insert key)) := by
  have hSame {d : Nat} {k' : K} :
      KeyAt (Function.update cell e.index (.pair k value)) d k' ↔ KeyAt cell d k' := by
    by_cases hd : d = e.index
    · subst hd
      have hSelf : KeyAt (Function.update cell e.index (.pair k value)) e.index k :=
        ⟨value, Function.update_self ..⟩
      exact ⟨fun hk => hSelf.unique hk ▸ hKey, fun hk => hKey.unique hk ▸ hSelf⟩
    · exact KeyAt.update_of_ne hd
  refine ⟨?_, h.chain.update (h.index_notMem_free he) _, h.partition, fun k' => ?_, ?_⟩
  · simpa only [hSame] using h.entry
  · simp only [hSame]
    rw [Blueprint.apply, Bool.or_eq_true, ← h.present_iff]
    refine ⟨fun hk' => hk'.elim (fun hMatch => ?_) id, Or.inr⟩
    exact (h.present_iff k').mpr ⟨e, he, k, hKey, bp.cmprKeys_trans hEq hMatch⟩
  · simpa only [hSame] using h.distinct

/-- An entry that moves to the freelist. -/
theorem release {e : IndexHash} {key k : K}
    (h : Entries bp cell first freelistCount (e ::ₘ stored) free present)
    (hKey : KeyAt cell e.index k) (hEq : bp.cmprKeys k key = true) :
    Entries bp (Function.update cell e.index (.freelist first)) e.index freelistCount stored
      (e.index :: free) (bp.apply present (.erase key)) := by
  have hMem : e ∈ e ::ₘ stored := Multiset.mem_cons_self ..
  have hNotFree := h.index_notMem_free hMem
  have hNe {e' : IndexHash} (he' : e' ∈ stored) : e'.index ≠ e.index := fun hIndex => by
    have hNodup := (Multiset.nodup_add.mp h.nodup).1
    rw [Multiset.map_cons, Multiset.nodup_cons] at hNodup
    exact hNodup.1 (hIndex ▸ Multiset.mem_map_of_mem IndexHash.index he')
  have hOld {e' : IndexHash} (he' : e' ∈ stored) {k' : K} :
      KeyAt (Function.update cell e.index (.freelist first)) e'.index k' ↔ KeyAt cell e'.index k' :=
    KeyAt.update_of_ne (hNe he')
  obtain ⟨m, hm, hPartition⟩ := h.partition
  refine ⟨fun e' he' => ?_, ?_, ⟨m, hm, ?_⟩, fun k' => ?_,
    fun e₁ he₁ e₂ he₂ k₁ k₂ hk₁ hk₂ hMatch => ?_⟩
  · obtain ⟨k', hKey', hHash⟩ := h.entry e' (Multiset.mem_cons_of_mem he')
    exact ⟨k', (hOld he').mpr hKey', hHash⟩
  · have hTwo : 2 ≤ e.index := ((h.mem_iff (d := e.index)).mpr (Or.inl ⟨e, hMem, rfl⟩)).1
    exact ⟨rfl, by omega, first, Function.update_self .., h.chain.update hNotFree _⟩
  · rw [← hPartition, Multiset.map_cons, ← Multiset.cons_coe, Multiset.add_cons, Multiset.cons_add]
  · rw [Blueprint.apply, Bool.and_eq_true, Bool.not_eq_true', Bool.eq_false_iff, h.present_iff]
    constructor
    · rintro ⟨hOther, e', he', k₁, hKey₁, hMatch⟩
      rcases Multiset.mem_cons.mp he' with rfl | he'
      · rw [hKey.unique hKey₁] at hEq
        exact absurd (bp.cmprKeys_trans (bp.cmprKeys_symm hEq) hMatch) hOther
      · exact ⟨e', he', k₁, (hOld he').mpr hKey₁, hMatch⟩
    · rintro ⟨e', he', k₁, hKey₁, hMatch⟩
      have hKey₁ := (hOld he').mp hKey₁
      refine ⟨fun hSame => hNe he' ?_, e', Multiset.mem_cons_of_mem he', k₁, hKey₁, hMatch⟩
      rw [h.distinct e' (Multiset.mem_cons_of_mem he') e hMem k₁ k hKey₁ hKey
        (bp.cmprKeys_trans hMatch (bp.cmprKeys_symm (bp.cmprKeys_trans hEq hSame)))]
  · exact h.distinct e₁ (Multiset.mem_cons_of_mem he₁) e₂ (Multiset.mem_cons_of_mem he₂) k₁ k₂
      ((hOld he₁).mp hk₁) ((hOld he₂).mp hk₂) hMatch

/-- Erasing a key that no pair has changes nothing. -/
theorem keep (h : Entries bp cell first freelistCount stored free present) {key : K}
    (hAbsent : present key = false) :
    Entries bp cell first freelistCount stored free (bp.apply present (.erase key)) := by
  refine ⟨h.entry, h.chain, h.partition, fun k => ?_, h.distinct⟩
  rw [Blueprint.apply, Bool.and_eq_true, ← h.present_iff]
  refine ⟨And.right, fun hk => ⟨?_, hk⟩⟩
  rw [Bool.not_eq_true']
  refine Bool.eq_false_iff.mpr fun hEq => ?_
  obtain ⟨e, he, k', hKey, hMatch⟩ := (h.present_iff k).mp hk
  have hPresent := (h.present_iff key).mpr
    ⟨e, he, k', hKey, bp.cmprKeys_trans hMatch (bp.cmprKeys_symm hEq)⟩
  rw [hAbsent] at hPresent
  cases hPresent

end Entries

end HashBench.MlibDict
