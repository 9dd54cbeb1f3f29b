import HashBench.MlibDictOa.Runs
import Mathlib.Data.BitVec

/-! What a dictionary reached by any run does: it is the finite map of its
calls, for integer keys other than the two reserved ones. -/
namespace HashBench.MlibDictOa

open Search Triangular Iteration OpenAddressing

variable {K V : Type}

/-- What the search for a key returns: an iterator at the slot of the key, which
is computed from the address of the value. -/
def LooksUp (oor : Oor K) (bp : Blueprint K V) (layout : Layout) (dict : Dict K V) (key : K)
    (isPresent : Bool) : Prop :=
  ∃ itr, ReturnsTo (fun fuel => (Shim.find oor bp layout fuel dict key).run) (.ok itr) ∧
    Shim.isItrValid dict itr = isPresent ∧
    (isPresent = true → ∃ p ≤ dict.mask,
      isUsed oor dict.data p = true ∧ bp.cmprKeys (dict.data p).key key = true ∧
      ReturnsTo (fun fuel => (get oor bp layout fuel dict key).run)
        (.ok (some (valueAddress layout p))) ∧
      itr = p ∧
      Resumes (Shim.isItrValid dict) (Shim.incrementItr oor dict) (Shim.getKeyFromItr dict)
        (Shim.beginItr oor dict) itr fun k => bp.cmprKeys k key = true)

/-- The dictionary is a finite map of the keys present among those in `user`. -/
structure Refines (oor : Oor K) (bp : Blueprint K V) (user : K → Prop) (dict : Dict K V)
    (present : K → Bool) : Prop where
  lookup : ∀ layout key, user key → LooksUp oor bp layout dict key (present key)
  empty : ∃ p ≤ dict.mask, oor.oorEqual (dict.data p).key oaEmpty = true
  once : ∀ p ≤ dict.mask, ∀ q ≤ dict.mask, isUsed oor dict.data p = true →
    isUsed oor dict.data q = true →
    bp.cmprKeys (dict.data p).key (dict.data q).key = true → p = q
  scan : ∃ order, bp.Enumerates order present ∧ order.length = dict.count ∧
    Visits (Shim.isItrValid dict) (Shim.incrementItr oor dict) (Shim.getKeyFromItr dict)
      (Shim.beginItr oor dict) order

theorem isItrValid_eq (dict : Dict K V) (itr : Nat) :
    Shim.isItrValid dict itr = decide (itr < dict.mask + 1) := by
  rw [Shim.isItrValid, ← decide_not, decide_eq_decide]
  omega

theorem address_div (layout : Layout) (p : Nat) :
    (valueAddress layout p - layout.offsetofValue - layout.data) / layout.sizeofPair = p := by
  rw [valueAddress, Nat.add_sub_cancel, Nat.add_sub_cancel_left]
  exact Nat.mul_div_cancel p layout.sizeofPair_pos

namespace Sound

variable {maxLoadFactor : ℚ} {oor : Oor K} {bp : Blueprint K V} {dict : Dict K V}
  {stored : Multiset (Pair K V)} {present : K → Bool} {key : K}

theorem isUsed_iff (h : Sound maxLoadFactor oor bp dict stored present) {p : Nat}
    (hp : p < dict.mask + 1) : isUsed oor dict.data p = true ↔
      dict.data p ∈ stored ∧ slots oor dict.data p = .live (dict.data p) := by
  have hSlot : isUsed oor dict.data p = true ↔ slots oor dict.data p = .live (dict.data p) := by
    rw [isUsed, Bool.and_eq_true, Bool.not_eq_true', Bool.not_eq_true', slots, slotOf_eq_live_iff]
    exact ⟨fun hUsed => ⟨rfl, hUsed⟩, And.right⟩
  rw [hSlot]
  exact ⟨fun hLive => ⟨h.counted.mem_stored.mpr ⟨p, hp, hLive⟩, hLive⟩, And.right⟩

/-- No key is in two slots. -/
theorem once (h : Sound maxLoadFactor oor bp dict stored present) {p q : Nat}
    (hp : p < dict.mask + 1) (hq : q < dict.mask + 1) (hUsed : isUsed oor dict.data p = true)
    (hUsed' : isUsed oor dict.data q = true)
    (hEq : bp.cmprKeys (dict.data p).key (dict.data q).key = true) : p = q := by
  have hNodup := h.nodup
  rw [← h.counted.contents_eq] at hNodup
  exact slot_unique hNodup hp hq ((h.isUsed_iff hp).mp hUsed).2 ((h.isUsed_iff hq).mp hUsed').2
    (bp.cls_eq_iff.mpr hEq)

/-- The present keys are those in use. -/
theorem present_iff_used (h : Sound maxLoadFactor oor bp dict stored present) (key : K) :
    present key = true ↔ ∃ p < dict.mask + 1, isUsed oor dict.data p = true ∧
      bp.cmprKeys (dict.data p).key key = true := by
  rw [h.present_iff]
  constructor
  · rintro ⟨e, he, hEq⟩
    obtain ⟨p, hp, hLive⟩ := h.counted.mem_stored.mp he
    obtain ⟨rfl, _⟩ := slotOf_eq_live_iff.mp hLive
    exact ⟨p, hp, (h.isUsed_iff hp).mpr ⟨he, hLive⟩, hEq⟩
  · rintro ⟨p, hp, hUsed, hEq⟩
    exact ⟨_, ((h.isUsed_iff hp).mp hUsed).1, hEq⟩

/-- The scan of the slots visits each present key once. -/
theorem scan (h : Sound maxLoadFactor oor bp dict stored present) :
    ∃ order, bp.Enumerates order present ∧ order.length = dict.count ∧
      Visits (Shim.isItrValid dict) (Shim.incrementItr oor dict) (Shim.getKeyFromItr dict)
        (Shim.beginItr oor dict) order := by
  have hOrder := bp.enumerates_used (isUsed oor dict.data) (dict.mask + 1)
    (Shim.getKeyFromItr dict) (fun _ hp _ hq hUsed hUsed' hMatch => h.once hp hq hUsed hUsed' hMatch)
    h.present_iff_used
  refine ⟨_, hOrder, ?_, ?_⟩
  · have hCount := congrArg Multiset.card (Counted.coe_usedFrom dict.data id
      (slots oor dict.data) (dict.mask + 1) fun p _ e hLive => (slotOf_eq_live_iff.mp hLive).1)
    rw [h.counted.contents_eq, Multiset.coe_card, List.length_map, Multiset.card_map,
      ← h.count_eq] at hCount
    rw [← hCount, List.length_map, isUsed_eq]
  · rw [← usedFrom_skip]
    exact visits_usedFrom _ (isItrValid_eq dict) (fun _ => rfl) (used_skip 0)

/-- With an empty slot the search for a key ends. -/
theorem looksUp (h : Sound maxLoadFactor oor bp dict stored present) (hLawful : oor.Lawful)
    (hRoom : dict.countDelete < dict.mask + 1) (hKey : Regular oor bp key) (layout : Layout) :
    LooksUp oor bp layout dict key (present key) := by
  obtain ⟨j, _, hProbe, ⟨e, he, hLive, hEq, hPresent⟩ | ⟨hEmpty, hAbsent⟩⟩ :=
    h.probeFor hLawful hRoom hKey (fun _ acc => acc) ()
  · have hp := h.probe_lt (bp.hashKey key) j
    obtain ⟨rfl, _⟩ := slotOf_eq_live_iff.mp hLive
    have hUsed := (h.isUsed_iff hp).mpr ⟨he, hLive⟩
    have hGet : ReturnsTo (fun fuel => (get oor bp layout fuel dict key).run)
        (.ok (some (valueAddress layout (probe dict.mask (bp.hashKey key) j)))) := by
      refine (lift_returns hProbe).andThen ?_
      simp only [hEq, if_true]
      exact ReturnsTo.pure _
    have hFind : ReturnsTo (fun fuel => (Shim.find oor bp layout fuel dict key).run)
        (.ok (probe dict.mask (bp.hashKey key) j)) := by
      refine hGet.andThen ?_
      simp only [address_div]
      exact ReturnsTo.pure _
    refine ⟨probe dict.mask (bp.hashKey key) j, hFind, ?_, fun _ =>
      ⟨_, Nat.le_of_lt_succ hp, hUsed, hEq, hGet, rfl, ?_⟩⟩
    · rw [hPresent, isItrValid_eq, decide_eq_true hp]
    · exact resumes_usedFrom _ (isItrValid_eq dict) (fun _ => rfl) hp hUsed hEq
  · have hGet : ReturnsTo (fun fuel => (get oor bp layout fuel dict key).run) (.ok none) := by
      refine (lift_returns hProbe).andThen ?_
      simp only [hKey.differs hLawful hEmpty, Bool.false_eq_true, if_false]
      exact ReturnsTo.pure _
    refine ⟨dict.mask + 1, hGet.andThen (ReturnsTo.pure _), ?_, fun hPresent => ?_⟩
    · rw [hAbsent, isItrValid_eq, decide_eq_false (lt_irrefl _)]
    · rw [hAbsent] at hPresent
      cases hPresent

theorem refines (h : Sound maxLoadFactor oor bp dict stored present) (hLawful : oor.Lawful)
    (hFilled : dict.countDelete ≤ dict.upperLimit) (hLow : 5 / 8 ≤ maxLoadFactor)
    (hHigh : maxLoadFactor < 1) {user : K → Prop} (hUser : ∀ key, user key → Regular oor bp key) :
    Refines oor bp user dict present := by
  have hTop := (h.limit_bounds hLow hHigh).2
  have hRoom : dict.countDelete < dict.mask + 1 := by omega
  refine ⟨fun layout key hKey => h.looksUp hLawful hRoom (hUser key hKey) layout, ?_,
    fun p hp q hq => h.once (Nat.lt_succ_of_le hp) (Nat.lt_succ_of_le hq), h.scan⟩
  obtain ⟨p, hp, hSlot⟩ := exists_empty (h.counted.filled_eq ▸ hRoom)
  exact ⟨p, Nat.le_of_lt_succ hp, oorEqual_of_empty hSlot⟩

end Sound

/-- Memory runs out where a dictionary of 2 ^ 62 keys or more grows. -/
def OutOfMemory (maxLoadFactor : ℚ) (memory : Nat → Pair K V) (oor : Oor K) (bp : Blueprint K V)
    (ops : List (Op K)) : Prop :=
  ReturnsTo (fun fuel => (Shim.run maxLoadFactor memory oor bp fuel ops).run)
      (.error .memoryFull) ∧
    ∃ before key after, ops = before ++ .insert key :: after ∧ bp.present before key = false ∧
      ∃ order, bp.Enumerates order (bp.present before) ∧ 2 ^ 62 ≤ order.length + 1

/-- A run reaches a dictionary that is the finite map of its calls, unless
memory runs out. -/
def RunRefines (maxLoadFactor : ℚ) (memory : Nat → Pair K V) (oor : Oor K) (bp : Blueprint K V)
    (user : K → Prop) (ops : List (Op K)) : Prop :=
  (∃ dict, ReturnsTo (fun fuel => (Shim.run maxLoadFactor memory oor bp fuel ops).run)
      (.ok dict) ∧ Refines oor bp user dict (bp.present ops)) ∨
    OutOfMemory maxLoadFactor memory oor bp ops

/-- A run over regular keys reaches a sound dictionary, unless memory runs out. -/
theorem run_sound {maxLoadFactor : ℚ} {oor : Oor K} (hLawful : oor.Lawful)
    (hLow : 5 / 8 ≤ maxLoadFactor) (hHigh : maxLoadFactor < 1) (memory : Nat → Pair K V)
    {bp : Blueprint K V} (ops : List (Op K)) (hKeys : ∀ op ∈ ops, Regular oor bp op.key) :
    (∃ dict, ReturnsTo (fun fuel => (Shim.run maxLoadFactor memory oor bp fuel ops).run)
        (.ok dict) ∧ Ready maxLoadFactor oor bp dict (bp.present ops)) ∨
      OutOfMemory maxLoadFactor memory oor bp ops := by
  rcases run_returns hLawful hLow hHigh bp memory ops hKeys with hReached |
    ⟨hRun, before, key, after, hSplit, hAbsent, dict, ⟨_, stored, hSound⟩, hMany⟩
  · exact Or.inl hReached
  · obtain ⟨order, hOrder, hLength, _⟩ := hSound.scan
    exact Or.inr ⟨hRun, before, key, after, hSplit, hAbsent, order, hOrder, hLength ▸ hMany⟩

/-- Every run over regular keys refines the finite map. -/
theorem run_refines {maxLoadFactor : ℚ} {oor : Oor K} (hLawful : oor.Lawful)
    (hLow : 5 / 8 ≤ maxLoadFactor) (hHigh : maxLoadFactor < 1) (memory : Nat → Pair K V)
    {bp : Blueprint K V} {user : K → Prop} (hUser : ∀ key, user key → Regular oor bp key)
    (ops : List (Op K)) (hKeys : ∀ op ∈ ops, user op.key) :
    RunRefines maxLoadFactor memory oor bp user ops := by
  rcases run_sound hLawful hLow hHigh memory ops fun op hOp => hUser _ (hKeys op hOp) with
    ⟨dict, hRun, hFilled, stored, hSound⟩ | hFull
  · exact Or.inl ⟨dict, hRun, hSound.refines hLawful hFilled hLow hHigh hUser⟩
  · exact Or.inr hFull

/-- The reserved keys of unsigned integers: the maximum and the one before. -/
def uintOor (w : Nat) : Oor (BitVec w) where
  oorEqual k n := k == BitVec.allOnes w - BitVec.ofNat w n
  oorSet n := BitVec.allOnes w - BitVec.ofNat w n

/-- An integer that is not reserved. -/
def UintKey {w : Nat} (key : BitVec w) : Prop :=
  key ≠ BitVec.allOnes w ∧ key ≠ BitVec.allOnes w - 1

theorem uintOor_lawful {w : Nat} (hw : 0 < w) : (uintOor w).Lawful := by
  refine ⟨fun n _ key => beq_iff_eq, fun hEq => ?_⟩
  have hOne : BitVec.ofNat w 0 = BitVec.ofNat w 1 := (BitVec.sub_right_inj _).mp hEq
  have hNat := congrArg BitVec.toNat hOne
  rw [BitVec.toNat_ofNat, BitVec.toNat_ofNat, Nat.zero_mod,
    Nat.mod_eq_of_lt (Nat.one_lt_two_pow hw.ne')] at hNat
  cases hNat

theorem UintKey.regular {w : Nat} {hash : BitVec w → Nat} {value : V} (key : BitVec w)
    (h : UintKey key) : Regular (uintOor w) (Blueprint.ofEq hash value) key := by
  intro n hn
  refine decide_eq_false fun hEq => ?_
  have hCases : n = 0 ∨ n = 1 := by omega
  rcases hCases with rfl | rfl
  · exact h.1 (hEq.symm.trans (BitVec.sub_zero _))
  · exact h.2 hEq.symm

/-- Every run over integers other than the two reserved ones refines the finite
map. -/
theorem mlibDictOa_uint_refines {w : Nat} (hw : 0 < w) {maxLoadFactor : ℚ}
    (hLow : 5 / 8 ≤ maxLoadFactor) (hHigh : maxLoadFactor < 1) (memory : Nat → Pair (BitVec w) V)
    (hash : BitVec w → Nat) (value : V) (ops : List (Op (BitVec w)))
    (hKeys : ∀ op ∈ ops, UintKey op.key) :
    RunRefines maxLoadFactor memory (uintOor w) (Blueprint.ofEq hash value) UintKey ops :=
  run_refines (uintOor_lawful hw) hLow hHigh memory UintKey.regular ops hKeys

/-- Two 32-bit keys of one hash, with the load factor of the benchmark. -/
theorem mlibDictOa_uint_refines_collision :
    RunRefines (7 / 8) (fun _ => ⟨0, ()⟩) (uintOor 32) (Blueprint.ofEq (fun _ => 3) ()) UintKey
      [.insert 5, .insert 6, .erase 5] :=
  mlibDictOa_uint_refines (by decide) (by norm_num) (by norm_num) _ _ _ _
    (by unfold UintKey; decide)

end HashBench.MlibDictOa
