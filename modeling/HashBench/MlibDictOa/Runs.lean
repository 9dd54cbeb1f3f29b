import HashBench.MlibDictOa.Operations

/-! Runs of an open-addressing dictionary over regular keys. Its limit always
leaves an empty slot, so that every call returns. -/
namespace HashBench.MlibDictOa

open Search Triangular OpenAddressing

variable {K V : Type} {maxLoadFactor : ℚ} {oor : Oor K} {bp : Blueprint K V}

namespace Sound

variable {dict : Dict K V} {stored : Multiset (Pair K V)} {present : K → Bool} {key : K}

/-- A resize up leaves no tombstone. -/
theorem resizeUp (h : Sound maxLoadFactor oor bp dict stored present) (hLawful : oor.Lawful)
    {newSize : Nat} (hNew : ∃ k ≤ 59, newSize = 2 ^ (k + 4)) (hLe : dict.mask + 1 ≤ newSize) :
    ∃ dict', ReturnsTo (fun fuel => resizeUp maxLoadFactor oor bp fuel dict newSize) dict' ∧
      Sound maxLoadFactor oor bp dict' stored present ∧ dict'.mask + 1 = newSize ∧
      dict'.countDelete = dict.count := by
  obtain ⟨k, hk, hSize⟩ := hNew
  have hRoom : stored.card ≤ newSize := by
    have hCard := h.counted.contents_eq ▸ total_filled (slots oor dict.data) (dict.mask + 1)
    have hSlots := total_filled_le (slots oor dict.data) (dict.mask + 1)
    omega
  obtain ⟨data', hRun, hCounted⟩ := resizeUp_spec maxLoadFactor hLawful hSize hLe
    h.counted.contents_eq h.regular hRoom
  have hMask : newSize - 1 + 1 = newSize := (mask_succ hSize).trans hSize.symm
  refine ⟨_, hRun, ⟨⟨k, hk, hMask.trans hSize⟩, ?_, h.count_eq, ?_, ?_, h.regular, h.holds, h.nodup⟩,
    hMask, rfl⟩
  · dsimp only [updateLimit]
    rw [hMask, h.count_eq]
    exact hCounted
  · dsimp only [updateLimit]
    rw [hMask]
  · dsimp only [updateLimit]
    rw [hMask]

/-- After a store, the limit holds again or memory has run out. -/
theorem checkLimit (h : Sound maxLoadFactor oor bp dict stored present) (hLawful : oor.Lawful)
    (hLow : 5 / 8 ≤ maxLoadFactor) (hHigh : maxLoadFactor < 1)
    (hFilled : dict.countDelete ≤ dict.upperLimit + 1) :
    (∃ dict', ReturnsTo (fun fuel => (checkLimit maxLoadFactor oor bp fuel dict).run) (.ok dict') ∧
        Sound maxLoadFactor oor bp dict' stored present ∧ dict'.countDelete ≤ dict'.upperLimit) ∨
      ReturnsTo (fun fuel => (MlibDictOa.checkLimit maxLoadFactor oor bp fuel dict).run)
          (.error .memoryFull) ∧ 2 ^ 62 ≤ dict.count := by
  obtain ⟨k, hk, hSize⟩ := h.size
  obtain ⟨hHalf, hTop⟩ := h.limit_bounds hLow hHigh
  have hCount := h.count_le
  have hDouble : 2 ^ (k + 1 + 4) = 2 * 2 ^ (k + 4) := by ring
  unfold MlibDictOa.checkLimit
  by_cases hFull : dict.countDelete ≥ dict.upperLimit
  · simp only [if_pos hFull]
    by_cases hGrow : dict.count > dict.mask / 2
    · simp only [if_pos hGrow]
      rcases Nat.lt_or_eq_of_le hk with hk | rfl
      · have hBelow : 2 ^ (k + 1 + 4) ≤ 2 ^ 63 := Nat.pow_le_pow_right Nat.zero_lt_two (by omega)
        have hNew : (dict.mask + 1 + (dict.mask + 1)) % 2 ^ 64 = 2 ^ (k + 1 + 4) := by
          rw [Nat.mod_eq_of_lt (by omega)]
          omega
        obtain ⟨dict', hRun, hSound, hMask, hDelete⟩ := h.resizeUp hLawful
          ⟨k + 1, by omega, rfl⟩ (show dict.mask + 1 ≤ 2 ^ (k + 1 + 4) by omega)
        refine Or.inl ⟨dict', ?_, hSound, ?_⟩
        · simp only [hNew, if_neg (show ¬ 2 ^ (k + 1 + 4) ≤ dict.mask + 1 by omega)]
          exact lift_returns hRun
        · have hHalf' := (hSound.limit_bounds hLow hHigh).1
          omega
      · refine Or.inr ⟨?_, by omega⟩
        have hWraps : (2 ^ (59 + 4) + 2 ^ (59 + 4)) % 2 ^ 64 ≤ 2 ^ (59 + 4) := by decide
        simp only [hSize, if_pos hWraps]
        exact ReturnsTo.pure _
    · simp only [if_neg hGrow]
      obtain ⟨dict', hRun, hSound, hMask, hDelete⟩ := h.resizeUp hLawful ⟨k, hk, hSize⟩ le_rfl
      refine Or.inl ⟨dict', lift_returns hRun, hSound, ?_⟩
      have hHalf' := (hSound.limit_bounds hLow hHigh).1
      omega
  · simp only [if_neg hFull]
    exact Or.inl ⟨dict, ReturnsTo.pure _, h, Nat.le_of_not_le hFull⟩

/-- An insertion stores the key, unless memory runs out. -/
theorem insert (h : Sound maxLoadFactor oor bp dict stored present) (hLawful : oor.Lawful)
    (hFilled : dict.countDelete ≤ dict.upperLimit) (hLow : 5 / 8 ≤ maxLoadFactor)
    (hHigh : maxLoadFactor < 1) (hKey : Regular oor bp key) :
    (∃ dict' stored',
        ReturnsTo (fun fuel => (Shim.insert maxLoadFactor oor bp fuel dict key).run) (.ok dict') ∧
        Sound maxLoadFactor oor bp dict' stored' (bp.apply present (.insert key)) ∧
        dict'.countDelete ≤ dict'.upperLimit) ∨
      ReturnsTo (fun fuel => (Shim.insert maxLoadFactor oor bp fuel dict key).run)
        (.error .memoryFull) ∧ present key = false ∧ 2 ^ 62 ≤ dict.count + 1 := by
  have hTop := (h.limit_bounds hLow hHigh).2
  cases hPresent : present key with
  | true =>
      obtain ⟨data', stored', hRun, hSound⟩ := h.insert_present hLawful (by omega) hKey hPresent
      exact Or.inl ⟨_, stored', hRun, hSound, hFilled⟩
  | false =>
      obtain ⟨dict', stored', hSound, hMask, hCount, hDelete, hRun⟩ :=
        h.insert_absent hLawful (by omega) hKey hPresent
      have hLimit : dict'.upperLimit = dict.upperLimit := by
        rw [hSound.upperLimit_eq, h.upperLimit_eq, hMask]
      rcases hSound.checkLimit hLawful hLow hHigh (by omega) with
        ⟨dict'', hCheck, hSound', hFilled'⟩ | ⟨hCheck, hMany⟩
      · exact Or.inl ⟨dict'', stored', hRun _ hCheck, hSound', hFilled'⟩
      · exact Or.inr ⟨hRun _ hCheck, rfl, by omega⟩

/-- A dictionary with few pairs is halved. -/
theorem shrink (h : Sound maxLoadFactor oor bp dict stored present) (hLawful : oor.Lawful)
    (hLow : 5 / 8 ≤ maxLoadFactor) (hHigh : maxLoadFactor < 1)
    (hFew : dict.count < dict.lowerLimit) :
    ∃ dict', ReturnsTo (fun fuel =>
        resizeDown maxLoadFactor oor bp fuel dict ((dict.mask + 1) >>> 1)) dict' ∧
      Sound maxLoadFactor oor bp dict' stored present ∧ dict'.countDelete ≤ dict'.upperLimit := by
  obtain ⟨k, hk, hSize⟩ := h.size
  rw [h.lowerLimit_eq, lowerLimitOf, initialSize] at hFew
  split_ifs at hFew with hInitial
  · exact absurd hFew (Nat.not_lt_zero _)
  obtain _ | k := k
  · exact absurd hSize.le hInitial
  have hDouble : 2 ^ (k + 1 + 4) = 2 * 2 ^ (k + 4) := by ring
  have hNew : (dict.mask + 1) >>> 1 = 2 ^ (k + 4) := by
    rw [Nat.shiftRight_eq_div_pow]
    omega
  have hCard := h.count_eq
  have hInitial' : initialSize ≤ (dict.mask + 1) >>> 1 := by
    rw [hNew]
    exact Nat.pow_le_pow_right Nat.zero_lt_two (Nat.le_add_left 4 k)
  obtain ⟨data', hRun, hCounted⟩ := resizeDown_spec maxLoadFactor hLawful hNew hInitial'
    (by omega) h.counted.contents_eq h.regular (by omega)
  rw [hNew] at hRun hCounted
  have hMask : 2 ^ (k + 4) - 1 + 1 = 2 ^ (k + 4) := mask_succ rfl
  have hSound : Sound maxLoadFactor oor bp (updateLimit maxLoadFactor { dict with
      mask := 2 ^ (k + 4) - 1, countDelete := dict.count, data := data' } (2 ^ (k + 4)))
      stored present := by
    refine ⟨⟨k, by omega, hMask⟩, ?_, h.count_eq, ?_, ?_, h.regular, h.holds, h.nodup⟩
    · dsimp only [updateLimit]
      rw [hMask, h.count_eq]
      exact hCounted
    · dsimp only [updateLimit]
      rw [hMask]
    · dsimp only [updateLimit]
      rw [hMask]
  refine ⟨_, by rwa [hNew], hSound, ?_⟩
  have hHalf := (hSound.limit_bounds hLow hHigh).1
  dsimp only [updateLimit] at hHalf ⊢
  omega

/-- The slot of a key is marked as deleted, and few pairs are moved together. -/
theorem removeAt {e : Pair K V}
    (h : Sound maxLoadFactor oor bp dict (e ::ₘ stored) present) (hLawful : oor.Lawful)
    (hFilled : dict.countDelete ≤ dict.upperLimit) (hLow : 5 / 8 ≤ maxLoadFactor)
    (hHigh : maxLoadFactor < 1) {p : Nat} (hp : p < dict.mask + 1)
    (hLive : slots oor dict.data p = .live e) (hEq : bp.cmprKeys e.key key = true) :
    ∃ dict', ReturnsTo (fun fuel => removeAt maxLoadFactor oor bp fuel dict p) dict' ∧
      Sound maxLoadFactor oor bp dict' stored (bp.apply present (.erase key)) ∧
      dict'.countDelete ≤ dict'.upperLimit := by
  have hCount := h.count_eq
  have hHolds := h.holds
  have hNodup := h.nodup
  rw [Multiset.card_cons] at hCount
  rw [Multiset.map_cons, bp.cls_eq_iff.mpr hEq] at hHolds hNodup
  have hSound : Sound maxLoadFactor oor bp
      { dict with
        data := Function.update dict.data p (mark oor oaDeleted (dict.data p))
        count := sizePred dict.count } stored (bp.apply present (.erase key)) := by
    refine ⟨h.size, ?_, ?_, h.upperLimit_eq, h.lowerLimit_eq,
      fun e' he' => h.regular e' (Multiset.mem_cons_of_mem he'), hHolds.erase_stored hNodup,
      (Multiset.nodup_cons.mp hNodup).2⟩
    · dsimp only
      rw [slots_update, slotOf_mark_deleted hLawful]
      exact h.counted.bury hp hLive
    · dsimp only
      rw [sizePred, if_neg (by omega)]
      omega
  unfold MlibDictOa.removeAt
  dsimp only
  by_cases hFew : sizePred dict.count < dict.lowerLimit
  · simp only [if_pos hFew]
    obtain ⟨dict', hRun, hSound', hFilled'⟩ := hSound.shrink hLawful hLow hHigh hFew
    exact ⟨dict', hRun, hSound', hFilled'⟩
  · simp only [if_neg hFew]
    exact ⟨_, ReturnsTo.pure _, hSound, hFilled⟩

/-- An erasure of an absent key leaves the dictionary as it is. -/
theorem erase_absent (h : Sound maxLoadFactor oor bp dict stored present) (hLawful : oor.Lawful)
    (hRoom : dict.countDelete < dict.mask + 1) (hKey : Regular oor bp key)
    (hAbsent : present key = false) :
    ReturnsTo (fun fuel => (Shim.erase maxLoadFactor oor bp fuel dict key).run) (.ok dict) ∧
      Sound maxLoadFactor oor bp dict stored (bp.apply present (.erase key)) := by
  have hClass : bp.cls key ∉ stored.map fun e => bp.cls e.key := fun hMem => by
    rw [(h.holds key).mpr hMem] at hAbsent
    cases hAbsent
  obtain ⟨j, _, hProbe, ⟨_, _, _, _, hPresent⟩ | ⟨hEmpty, _⟩⟩ := h.probeFor hLawful hRoom hKey
    (fun _ acc => acc) ()
  · rw [hAbsent] at hPresent
    cases hPresent
  · refine ⟨(lift_returns hProbe).andThen ?_, h.size, h.counted, h.count_eq, h.upperLimit_eq,
      h.lowerLimit_eq, h.regular, h.holds.erase_absent hClass, h.nodup⟩
    simp only [hKey.differs hLawful hEmpty, oorEqual_of_empty hEmpty, Bool.false_eq_true, if_false,
      if_true, ite_self]
    exact ReturnsTo.pure _

/-- An erasure takes the key out. -/
theorem erase (h : Sound maxLoadFactor oor bp dict stored present) (hLawful : oor.Lawful)
    (hFilled : dict.countDelete ≤ dict.upperLimit) (hLow : 5 / 8 ≤ maxLoadFactor)
    (hHigh : maxLoadFactor < 1) (hKey : Regular oor bp key) :
    ∃ dict' stored',
      ReturnsTo (fun fuel => (Shim.erase maxLoadFactor oor bp fuel dict key).run) (.ok dict') ∧
      Sound maxLoadFactor oor bp dict' stored' (bp.apply present (.erase key)) ∧
      dict'.countDelete ≤ dict'.upperLimit := by
  have hTop := (h.limit_bounds hLow hHigh).2
  obtain ⟨j, _, hProbe, ⟨e, he, hLive, hEq, _⟩ | ⟨_, hAbsent⟩⟩ := h.probeFor hLawful (by omega) hKey
    (fun _ acc => acc) ()
  · obtain ⟨rest, rfl⟩ := Multiset.exists_cons_of_mem he
    obtain ⟨dict', hRun, hSound, hFilled'⟩ := h.removeAt hLawful hFilled hLow hHigh
      (h.probe_lt (bp.hashKey key) j) hLive hEq
    refine ⟨dict', rest, (lift_returns hProbe).andThen ?_, hSound, hFilled'⟩
    obtain ⟨rfl, hNonempty, _⟩ := slotOf_eq_live_iff.mp hLive
    simp only [hEq, hNonempty, if_true, Bool.false_eq_true, if_false, ite_self]
    exact lift_returns hRun
  · obtain ⟨hRun, hSound⟩ := h.erase_absent hLawful (by omega) hKey hAbsent
    exact ⟨dict, stored, hRun, hSound, hFilled⟩

end Sound

theorem init_sound (maxLoadFactor : ℚ) (hLawful : oor.Lawful) (bp : Blueprint K V)
    (memory : Nat → Pair K V) :
    Sound maxLoadFactor oor bp (init maxLoadFactor memory oor) 0 fun _ => false := by
  have hEmpty (p : Nat) : slots oor (init maxLoadFactor memory oor).data p = .empty :=
    slotOf_mark_empty hLawful _
  refine ⟨⟨0, Nat.zero_le 59, rfl⟩, ⟨?_, ?_, ?_⟩, rfl, rfl, rfl, ?_, Blueprint.Holds.empty, ?_⟩
  · intro p _ e hLive
    rw [hEmpty] at hLive
    cases hLive
  · exact total_eq_zero _ fun p _ => by rw [hEmpty]; rfl
  · exact total_eq_zero _ fun p _ => by rw [hEmpty]; rfl
  · intro e he
    exact absurd he (Multiset.notMem_zero e)
  · exact Multiset.nodup_zero

/-- A dictionary between two calls, with these keys. -/
def Ready (maxLoadFactor : ℚ) (oor : Oor K) (bp : Blueprint K V) (dict : Dict K V)
    (present : K → Bool) : Prop :=
  dict.countDelete ≤ dict.upperLimit ∧ ∃ stored, Sound maxLoadFactor oor bp dict stored present

/-- A run over regular keys reaches a dictionary with the keys of its calls, or
memory runs out at a call that inserts one key more. -/
theorem run_returns (hLawful : oor.Lawful) (hLow : 5 / 8 ≤ maxLoadFactor)
    (hHigh : maxLoadFactor < 1) (bp : Blueprint K V) (memory : Nat → Pair K V) (ops : List (Op K))
    (hKeys : ∀ op ∈ ops, Regular oor bp op.key) :
    (∃ dict, ReturnsTo (fun fuel => (Shim.run maxLoadFactor memory oor bp fuel ops).run)
        (.ok dict) ∧ Ready maxLoadFactor oor bp dict (bp.present ops)) ∨
      ReturnsTo (fun fuel => (Shim.run maxLoadFactor memory oor bp fuel ops).run)
          (.error .memoryFull) ∧
        ∃ before key after, ops = before ++ .insert key :: after ∧ bp.present before key = false ∧
          ∃ dict, Ready maxLoadFactor oor bp dict (bp.present before) ∧
            2 ^ 62 ≤ dict.count + 1 := by
  induction ops using List.reverseRecOn with
  | nil => exact Or.inl ⟨_, ReturnsTo.pure _, Nat.zero_le _, 0, init_sound _ hLawful bp memory⟩
  | append_singleton ops op ih =>
      have hSplit (fuel : Nat) : Shim.run maxLoadFactor memory oor bp fuel (ops ++ [op]) =
          Shim.run maxLoadFactor memory oor bp fuel ops >>= fun dict =>
            Shim.call maxLoadFactor oor bp fuel dict op := by
        simp [Shim.run, List.foldlM_append]
      have hKey : Regular oor bp op.key := hKeys op (by simp)
      simp only [hSplit, Blueprint.present_concat]
      rcases ih fun op' hOp => hKeys op' (List.mem_append_left _ hOp) with
        ⟨dict, hRun, hFilled, stored, hSound⟩ | ⟨hRun, before, key, after, rfl, hAbsent, hMany⟩
      · cases op with
        | insert key =>
            rcases hSound.insert hLawful hFilled hLow hHigh hKey with
              ⟨dict', stored', hCall, hSound', hFilled'⟩ | ⟨hCall, hAbsent, hMany⟩
            · exact Or.inl ⟨dict', hRun.andThen hCall, hFilled', stored', hSound'⟩
            · exact Or.inr ⟨hRun.andThen hCall, ops, key, [], rfl, hAbsent, dict,
                ⟨hFilled, stored, hSound⟩, hMany⟩
        | erase key =>
            obtain ⟨dict', stored', hCall, hSound', hFilled'⟩ :=
              hSound.erase hLawful hFilled hLow hHigh hKey
            exact Or.inl ⟨dict', hRun.andThen hCall, hFilled', stored', hSound'⟩
      · refine Or.inr ⟨hRun.raise _, before, key, after ++ [op], ?_, hAbsent, hMany⟩
        rw [List.append_assoc, List.cons_append]

end HashBench.MlibDictOa
