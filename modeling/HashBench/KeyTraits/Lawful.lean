import HashBench.KeyTraits.Traits

/-! The key traits are lawful. Both compare markers by identity and the user's
keys as the blueprint does, so that the laws follow from those of the blueprint. -/
namespace HashBench.KeyTraits

open Sentinels

/-- What a table relies on, for all stored keys. -/
structure Lawful {K H : Type*} [DecidableEq K] (markers : Markers K) (user : Set K)
    (isEqual : K → K → Except Fault Bool) (hash : K → Except Fault H) : Prop where
  returns : ∀ a ∈ markers.stored user, ∀ b ∈ markers.stored user, ∃ r, isEqual a b = .ok r
  refl : ∀ a ∈ markers.stored user, isEqual a a = .ok true
  symm : ∀ a ∈ markers.stored user, ∀ b ∈ markers.stored user,
    isEqual a b = .ok true → isEqual b a = .ok true
  trans : ∀ a ∈ markers.stored user, ∀ b ∈ markers.stored user, ∀ c ∈ markers.stored user,
    isEqual a b = .ok true → isEqual b c = .ok true → isEqual a c = .ok true
  empty_iff : ∀ a ∈ markers.stored user, isEqual markers.empty a = .ok true ↔ a = markers.empty
  tombstone_iff : ∀ a ∈ markers.stored user,
    isEqual markers.tombstone a = .ok true ↔ a = markers.tombstone
  user_ne : ∀ a ∈ user, isEqual markers.empty a = .ok false ∧
    isEqual markers.tombstone a = .ok false
  hash_congr : ∀ a ∈ markers.stored user, ∀ b ∈ markers.stored user,
    isEqual a b = .ok true → hash a = hash b

/-- On the user's keys the functions of the blueprint return, and are an equivalence
under which equal keys hash equally. -/
structure Compares {K : Type*} (blueprint : Calls K) (user : Set K) (r : K → K → Bool) : Prop where
  cmprKeys : ∀ a ∈ user, ∀ b ∈ user, blueprint.cmprKeys a b = .ok (r a b)
  hashKey : ∀ a ∈ user, ∃ hash, blueprint.hashKey a = .ok hash
  equivalence : EquivalenceOn user r
  congr : ∀ a ∈ user, ∀ b ∈ user, r a b = true → blueprint.hashKey a = blueprint.hashKey b

section Extend

variable {K H : Type*} [DecidableEq K] {markers : Markers K} {user : Set K} {r : K → K → Bool}
  {isEqual : K → K → Except Fault Bool} {hash : K → Except Fault H}

/-- The laws hold of every comparison that extends a lawful one to the markers. -/
theorem Lawful.of_extend (hUser : user ⊆ markers.unmarked) (hr : EquivalenceOn user r)
    (hEqual : ∀ a ∈ markers.stored user, ∀ b ∈ markers.stored user,
      isEqual a b = .ok (markers.extend r a b))
    (hHash : ∀ a ∈ user, ∀ b ∈ user, r a b = true → hash a = hash b) :
    Lawful markers user isEqual hash := by
  have hStored := markers.extend_equivalence hr
  have hIff (a b : K) (ha : a ∈ markers.stored user) (hb : b ∈ markers.stored user) :
      isEqual a b = .ok true ↔ markers.extend r a b = true := by
    rw [hEqual a ha b hb, Except.ok.injEq]
  have hEmpty : markers.empty ∈ markers.stored user := .inr Markers.marks_empty
  have hTombstone : markers.tombstone ∈ markers.stored user := .inr Markers.marks_tombstone
  have hFalse (m a : K) (hm : markers.marks m = true) (ha : a ∈ user) :
      isEqual m a = .ok false := by
    rw [hEqual m (.inr hm) a (.inl ha), Except.ok.injEq, Bool.eq_false_iff]
    intro hExtend
    obtain rfl := (Markers.extend_marks hm).mp hExtend
    exact Bool.false_ne_true ((hUser ha : markers.marks m = false).symm.trans hm)
  refine ⟨fun a ha b hb => ⟨_, hEqual a ha b hb⟩, fun a ha => ?_, fun a ha b hb hab => ?_,
    fun a ha b hb c hc hab hbc => ?_, fun a ha => ?_, fun a ha => ?_,
    fun a ha => ⟨hFalse _ a Markers.marks_empty ha, hFalse _ a Markers.marks_tombstone ha⟩,
    fun a ha b hb hab => ?_⟩
  · exact (hIff a a ha ha).mpr (hStored.refl a ha)
  · exact (hIff b a hb ha).mpr (hStored.symm a ha b hb ((hIff a b ha hb).mp hab))
  · exact (hIff a c ha hc).mpr (hStored.trans a ha b hb c hc ((hIff a b ha hb).mp hab)
      ((hIff b c hb hc).mp hbc))
  · rw [hIff _ a hEmpty ha, Markers.extend_marks Markers.marks_empty, eq_comm]
  · rw [hIff _ a hTombstone ha, Markers.extend_marks Markers.marks_tombstone, eq_comm]
  · rcases Markers.extend_cases ((hIff a b ha hb).mp hab) with rfl | ⟨hNotA, hNotB, hRel⟩
    · rfl
    · exact hHash a (Markers.mem_of_stored ha hNotA) b (Markers.mem_of_stored hb hNotB) hRel

end Extend

section Callers

variable {K : Type*} [DecidableEq K] {blueprint : Calls K} {user : Set K} {r : K → K → Bool}

theorem llvm_isEqual {markers : Markers K} (h : Compares blueprint user r) {a b : K}
    (ha : a ∈ markers.stored user) (hb : b ∈ markers.stored user) :
    LlvmBlueprintDenseMapInfo.isEqual markers blueprint a b = .ok (markers.extend r a b) := by
  rw [LlvmBlueprintDenseMapInfo.isEqual]
  cases hA : markers.marks a with
  | true =>
      rw [Markers.extend_of_marks (by rw [hA, Bool.true_or])]
      rcases Markers.marks_iff.mp hA with rfl | rfl
      · rw [if_pos rfl, Bool.beq_comm]
      · rw [if_neg markers.distinct.symm, if_pos rfl, Bool.beq_comm]
  | false =>
      have hNot (m : K) (hm : markers.marks m = true) : ¬ a = m :=
        beq_eq_false_iff_ne.mp (Markers.beq_of_marks hA hm)
      rw [if_neg (hNot _ Markers.marks_empty), if_neg (hNot _ Markers.marks_tombstone)]
      change (if markers.marks b = true then _ else _) = _
      cases hB : markers.marks b with
      | true =>
          rw [if_pos rfl, Markers.extend_of_marks (by rw [hB, Bool.or_true]),
            Markers.beq_of_marks hA hB]
      | false =>
          rw [if_neg Bool.false_ne_true, Markers.extend_unmarked hA hB]
          exact h.cmprKeys a (Markers.mem_of_stored ha hA) b (Markers.mem_of_stored hb hB)

theorem llvm_isEqualCharPtr {blueprint : Calls Pointer} {user : Set Pointer}
    {r : Pointer → Pointer → Bool} {markers : Markers Pointer} (h : Compares blueprint user r)
    {a b : Pointer} (ha : a ∈ markers.stored user) (hb : b ∈ markers.stored user) :
    LlvmBlueprintDenseMapInfo.isEqualCharPtr markers blueprint a b =
      .ok (markers.extend r a b) := by
  change (if (markers.marks a || markers.marks b) = true then _ else _) = _
  cases hMarks : markers.marks a || markers.marks b with
  | true => rw [if_pos rfl, Markers.extend_of_marks hMarks]
  | false =>
      obtain ⟨hA, hB⟩ := Bool.or_eq_false_iff.mp hMarks
      rw [if_neg Bool.false_ne_true, Markers.extend_unmarked hA hB]
      exact h.cmprKeys a (Markers.mem_of_stored ha hA) b (Markers.mem_of_stored hb hB)

/-- The adapter tells the markers by `isValid`, and compares identical keys alike. -/
theorem excalibur_isEqual {info : KeyInfo K} (h : Compares blueprint user r)
    (hValid : ∀ a ∈ info.stored user, info.isValid a = !info.marks a) {a b : K}
    (ha : a ∈ info.stored user) (hb : b ∈ info.stored user) :
    KeyInfoAdapter.isEqual info blueprint a b = .ok (info.extend r a b) := by
  rw [KeyInfoAdapter.isEqual, hValid a ha, hValid b hb, ← Bool.not_or]
  by_cases hSame : a = b
  · subst hSame
    rw [if_pos rfl, (Markers.extend_equivalence h.equivalence).refl a ha]
  · rw [if_neg hSame]
    cases hMarks : info.marks a || info.marks b with
    | true =>
        rw [Bool.not_true, if_neg Bool.false_ne_true, Markers.extend_of_marks hMarks,
          beq_eq_false_iff_ne.mpr hSame]
    | false =>
        obtain ⟨hA, hB⟩ := Bool.or_eq_false_iff.mp hMarks
        rw [Bool.not_false, if_pos rfl, Markers.extend_unmarked hA hB]
        exact h.cmprKeys a (Markers.mem_of_stored ha hA) b (Markers.mem_of_stored hb hB)

end Callers

section Strings

variable {V : Type} {strings : Strings} {markers : Markers Pointer}
  (bp : Blueprint (strings.User markers) V)

def Strings.users (strings : Strings) (markers : Markers Pointer) : Set Pointer :=
  {p | strings.IsUser markers p}

/-- How the blueprint compares the user's pointers. -/
def pointerRel (p q : Pointer) : Bool :=
  if h : strings.IsUser markers p ∧ strings.IsUser markers q then
    bp.cmprKeys ⟨p, h.1⟩ ⟨q, h.2⟩
  else false

theorem compares_strings :
    Compares (strings.calls markers bp) (strings.users markers) (pointerRel bp) := by
  have hHash (a : Pointer) (ha : strings.IsUser markers a) :
      (strings.calls markers bp).hashKey a = .ok (bp.hashKey ⟨a, ha⟩) := by
    simp only [Strings.calls, Strings.deref, dif_pos ha]
    rfl
  refine ⟨fun a ha b hb => ?_, fun a ha => ⟨_, hHash a ha⟩,
    ⟨fun a ha => ?_, fun a ha b hb => ?_, fun a ha b hb c hc => ?_⟩, fun a ha b hb hab => ?_⟩
  · rw [pointerRel, dif_pos ⟨ha, hb⟩]
    simp only [Strings.calls, Strings.deref, dif_pos (show strings.IsUser markers a from ha),
      dif_pos (show strings.IsUser markers b from hb)]
    rfl
  · rw [pointerRel, dif_pos ⟨ha, ha⟩]
    exact bp.cmprKeys_refl _
  · rw [pointerRel, dif_pos ⟨ha, hb⟩, pointerRel, dif_pos ⟨hb, ha⟩]
    exact bp.cmprKeys_symm
  · rw [pointerRel, dif_pos ⟨ha, hb⟩, pointerRel, dif_pos ⟨hb, hc⟩, pointerRel, dif_pos ⟨ha, hc⟩]
    exact bp.cmprKeys_trans
  · rw [pointerRel, dif_pos ⟨ha, hb⟩] at hab
    rw [hHash a ha, hHash b hb, bp.hashKey_congr hab]

theorem users_unmarked : strings.users markers ⊆ markers.unmarked := fun _ h => h.2.2

end Strings

section Values

variable {K V : Type}

theorem compares_values (bp : Blueprint K V) (user : Set K) :
    Compares (.ofValues bp) user bp.cmprKeys :=
  ⟨fun _ _ _ _ => rfl, fun _ _ => ⟨_, rfl⟩,
    ⟨fun a _ => bp.cmprKeys_refl a, fun _ _ _ _ => bp.cmprKeys_symm,
      fun _ _ _ _ _ _ => bp.cmprKeys_trans⟩,
    fun _ _ _ _ h => congrArg Except.ok (bp.hashKey_congr h)⟩

/-- Every integer is a key of the user or a marker. -/
theorem mem_stored_unmarked [DecidableEq K] (markers : Markers K) (a : K) :
    a ∈ markers.stored markers.unmarked := by
  cases h : markers.marks a with
  | true => exact .inr h
  | false => exact .inl h

end Values

section Hash

variable {blueprint : Calls Pointer} {markers : Markers Pointer} {user : Set Pointer}
  {r : Pointer → Pointer → Bool} {a : Pointer}

theorem getHashValueCharPtr_of_unmarked (ha : a ∈ markers.unmarked) :
    LlvmBlueprintDenseMapInfo.getHashValueCharPtr markers blueprint a =
      LlvmBlueprintDenseMapInfo.getHashValueLookup blueprint a := by
  have hMarks : markers.marks a = false := ha
  change (if markers.marks a = true then _ else _) = _
  rw [hMarks, if_neg Bool.false_ne_true]
  rfl

/-- No marker is given to the blueprint. -/
theorem getHashValueCharPtr_returns (h : Compares blueprint user r) (ha : a ∈ markers.stored user) :
    ∃ hash, LlvmBlueprintDenseMapInfo.getHashValueCharPtr markers blueprint a = .ok hash := by
  change ∃ hash, (if markers.marks a = true then _ else _) = _
  cases hMarks : markers.marks a with
  | true => exact ⟨_, if_pos rfl⟩
  | false =>
      obtain ⟨hash, hHash⟩ := h.hashKey a (Markers.mem_of_stored ha hMarks)
      rw [if_neg Bool.false_ne_true, hHash]
      exact ⟨_, rfl⟩

/-- The overload for `const char *` leaves out the test of its own argument. -/
theorem isEqualLookup_eq {b : Pointer} (ha : a ∈ markers.unmarked) :
    LlvmBlueprintDenseMapInfo.isEqualLookup markers blueprint a b =
      LlvmBlueprintDenseMapInfo.isEqualCharPtr markers blueprint a b := by
  have hMarks : markers.marks a = false := ha
  change (if markers.marks b = true then _ else _) =
    (if (markers.marks a || markers.marks b) = true then _ else _)
  rw [hMarks, Bool.false_or]
  cases hB : markers.marks b with
  | true => rw [if_pos rfl, if_pos rfl, Markers.beq_of_marks ha hB]
  | false => rfl

end Hash

section Main

theorem llvm_charPtr_lawful {V : Type} {strings : Strings} {info : Markers Pointer}
    (bp : Blueprint (strings.User info) V) : Lawful info (strings.users info)
      (LlvmBlueprintDenseMapInfo.isEqualCharPtr info (strings.calls info bp))
      (LlvmBlueprintDenseMapInfo.getHashValueCharPtr info (strings.calls info bp)) := by
  have hCompares := compares_strings bp
  refine .of_extend users_unmarked hCompares.equivalence
    (fun a ha b hb => llvm_isEqualCharPtr hCompares ha hb) fun a ha b hb hab => ?_
  rw [getHashValueCharPtr_of_unmarked (users_unmarked ha),
    getHashValueCharPtr_of_unmarked (users_unmarked hb),
    LlvmBlueprintDenseMapInfo.getHashValueLookup, hCompares.congr a ha b hb hab]
  rfl

theorem llvm_lawful {K V : Type} [DecidableEq K] (info : Markers K) (bp : Blueprint K V) :
    Lawful info info.unmarked (LlvmBlueprintDenseMapInfo.isEqual info (.ofValues bp))
      (LlvmBlueprintDenseMapInfo.getHashValue (.ofValues bp)) := by
  have hCompares := compares_values bp info.unmarked
  refine .of_extend subset_rfl hCompares.equivalence
    (fun a ha b hb => llvm_isEqual hCompares ha hb) fun a ha b hb hab => ?_
  rw [LlvmBlueprintDenseMapInfo.getHashValue, hCompares.congr a ha b hb hab]
  rfl

theorem excalibur_lawful {K : Type} [DecidableEq K] (info : KeyInfo K) {blueprint : Calls K}
    {user : Set K} {r : K → K → Bool} (h : Compares blueprint user r)
    (hUser : user ⊆ info.unmarked)
    (hValid : ∀ a ∈ info.stored user, info.isValid a = !info.marks a) :
    Lawful info.toMarkers user (KeyInfoAdapter.isEqual info blueprint)
        (KeyInfoAdapter.hash blueprint) ∧
      ∀ a ∈ info.stored user, KeyInfoAdapter.isValid info a = true ↔
        a ≠ KeyInfoAdapter.getEmpty info ∧ a ≠ KeyInfoAdapter.getTombstone info := by
  refine ⟨.of_extend hUser h.equivalence (fun a ha b hb => excalibur_isEqual h hValid ha hb)
    h.congr, fun a ha => ?_⟩
  rw [KeyInfoAdapter.isValid, hValid a ha, Bool.not_eq_true', ← Bool.not_eq_true,
    Markers.marks_iff, not_or]
  rfl

/-- The user's pointers are not null. -/
theorem isValid_charPtr {strings : Strings} {markers : Markers Pointer} {a : Pointer}
    (ha : a ∈ markers.stored (strings.users markers)) :
    (KeyInfo.charPtr markers).isValid a = !markers.marks a := by
  have hNot : (!markers.marks a) = (a != markers.empty && a != markers.tombstone) := by
    rw [Markers.marks, Bool.not_or]
    rfl
  change (a != 0#64 && a != markers.empty && a != markers.tombstone) = _
  rw [hNot, Bool.and_assoc]
  cases hMarks : markers.marks a with
  | true => rw [← hNot, hMarks, Bool.not_true, Bool.and_false]
  | false =>
      have hUser : a ∈ strings.users markers := Markers.mem_of_stored ha hMarks
      rw [bne_iff_ne.mpr hUser.1, Bool.true_and]

/-- Markers that are the two largest values are told by one comparison. -/
theorem isValid_of_largest {K : Type} [DecidableEq K] {info : KeyInfo K} (value : K → Int)
    (hInjective : Function.Injective value) {bound : Int} (hRange : ∀ a, value a < bound)
    (hValid : ∀ a, info.isValid a = true ↔ value a < bound - 2)
    (hMarkers : value info.empty = bound - 1 ∧ value info.tombstone = bound - 2 ∨
      value info.empty = bound - 2 ∧ value info.tombstone = bound - 1) (a : K) :
    info.isValid a = !info.marks a := by
  rw [Bool.eq_iff_iff, Bool.not_eq_true', ← Bool.not_eq_true, Markers.marks_iff, not_or,
    ← hInjective.eq_iff, ← hInjective.eq_iff, hValid]
  have hBound := hRange a
  omega

theorem toNat_injective {w : Nat} : Function.Injective fun a : BitVec w => (a.toNat : Int) :=
  fun _ _ h => BitVec.eq_of_toNat_eq (Int.ofNat_inj.mp h)

theorem toInt_injective {w : Nat} : Function.Injective fun a : BitVec w => a.toInt :=
  fun _ _ h => BitVec.eq_of_toInt_eq h

theorem ult_iff {w : Nat} {a b : BitVec w} {bound : Int} (hb : (b.toNat : Int) = bound) :
    a.ult b = true ↔ (a.toNat : Int) < bound := by
  rw [BitVec.ult_iff_toNat_lt, ← hb, Int.ofNat_lt]

theorem isValid_int32 : ∀ info ∈ [KeyInfo.int32, KeyInfo.uint32], ∀ a,
    info.isValid a = !info.marks a := by
  intro info hInfo
  rcases List.mem_pair.mp hInfo with rfl | rfl
  · exact isValid_of_largest _ toInt_injective (fun a => BitVec.toInt_lt)
      (fun a => BitVec.slt_iff_toInt_lt) (by decide)
  · exact isValid_of_largest _ toNat_injective
      (fun a => show (a.toNat : Int) < 2 ^ 32 by have hLt := a.isLt; omega)
      (fun a => ult_iff (by decide)) (by decide)

theorem isValid_int64 : ∀ info ∈ [KeyInfo.int64, KeyInfo.uint64], ∀ a,
    info.isValid a = !info.marks a := by
  intro info hInfo
  rcases List.mem_pair.mp hInfo with rfl | rfl
  · exact isValid_of_largest _ toInt_injective (fun a => BitVec.toInt_lt)
      (fun a => BitVec.slt_iff_toInt_lt) (by decide)
  · exact isValid_of_largest _ toNat_injective
      (fun a => show (a.toNat : Int) < 2 ^ 64 by have hLt := a.isLt; omega)
      (fun a => ult_iff (by decide)) (by decide)

/-- The key traits of both shims are lawful for every key type. -/
theorem sentinel_key_traits_lawful :
    (∀ {V : Type} (strings : Strings) (info : Markers Pointer)
      (bp : Blueprint (strings.User info) V),
      Lawful info (strings.users info)
        (LlvmBlueprintDenseMapInfo.isEqualCharPtr info (strings.calls info bp))
        (LlvmBlueprintDenseMapInfo.getHashValueCharPtr info (strings.calls info bp)) ∧
      (∀ slot ∈ info.stored (strings.users info), ∃ hash,
        LlvmBlueprintDenseMapInfo.getHashValueCharPtr info (strings.calls info bp) slot =
          .ok hash) ∧
      ∀ key ∈ strings.users info,
        LlvmBlueprintDenseMapInfo.getHashValueLookup (strings.calls info bp) key =
          LlvmBlueprintDenseMapInfo.getHashValueCharPtr info (strings.calls info bp) key ∧
        ∀ slot ∈ info.stored (strings.users info),
          LlvmBlueprintDenseMapInfo.isEqualLookup info (strings.calls info bp) key slot =
            LlvmBlueprintDenseMapInfo.isEqualCharPtr info (strings.calls info bp) key slot) ∧
    (∀ {K V : Type} [DecidableEq K] (info : Markers K) (bp : Blueprint K V),
      (∀ key, key ∈ info.stored info.unmarked) ∧
      Lawful info info.unmarked (LlvmBlueprintDenseMapInfo.isEqual info (.ofValues bp))
        (LlvmBlueprintDenseMapInfo.getHashValue (.ofValues bp))) ∧
    (∀ {V : Type} (strings : Strings) (markers : Markers Pointer)
      (bp : Blueprint (strings.User markers) V),
      Lawful markers (strings.users markers)
        (KeyInfoAdapter.isEqual (.charPtr markers) (strings.calls markers bp))
        (KeyInfoAdapter.hash (strings.calls markers bp)) ∧
      ∀ slot ∈ markers.stored (strings.users markers),
        KeyInfoAdapter.isValid (.charPtr markers) slot = true ↔
          slot ≠ markers.empty ∧ slot ≠ markers.tombstone) ∧
    (∀ {V : Type}, ∀ info ∈ [KeyInfo.int32, KeyInfo.uint32], ∀ bp : Blueprint (BitVec 32) V,
      Lawful info.toMarkers info.unmarked (KeyInfoAdapter.isEqual info (.ofValues bp))
        (KeyInfoAdapter.hash (.ofValues bp)) ∧
      ∀ key, KeyInfoAdapter.isValid info key = true ↔ key ≠ info.empty ∧ key ≠ info.tombstone) ∧
    (∀ {V : Type}, ∀ info ∈ [KeyInfo.int64, KeyInfo.uint64], ∀ bp : Blueprint (BitVec 64) V,
      Lawful info.toMarkers info.unmarked (KeyInfoAdapter.isEqual info (.ofValues bp))
        (KeyInfoAdapter.hash (.ofValues bp)) ∧
      ∀ key, KeyInfoAdapter.isValid info key = true ↔
        key ≠ info.empty ∧ key ≠ info.tombstone) := by
  refine ⟨fun strings info bp => ⟨llvm_charPtr_lawful bp, fun slot => ?_, fun key hKey => ⟨?_, ?_⟩⟩,
    fun info bp => ⟨mem_stored_unmarked info, llvm_lawful info bp⟩,
    fun strings markers bp => ?_, fun info hInfo bp => ?_, fun info hInfo bp => ?_⟩
  · exact getHashValueCharPtr_returns (compares_strings bp)
  · exact (getHashValueCharPtr_of_unmarked (users_unmarked hKey)).symm
  · exact fun slot _ => isEqualLookup_eq (users_unmarked hKey)
  · exact excalibur_lawful (.charPtr markers) (compares_strings bp) users_unmarked
      fun a ha => isValid_charPtr ha
  · have h := excalibur_lawful info (compares_values bp info.unmarked) subset_rfl
      fun a _ => isValid_int32 info hInfo a
    exact ⟨h.1, fun key => h.2 key (mem_stored_unmarked info.toMarkers key)⟩
  · have h := excalibur_lawful info (compares_values bp info.unmarked) subset_rfl
      fun a _ => isValid_int64 info hInfo a
    exact ⟨h.1, fun key => h.2 key (mem_stored_unmarked info.toMarkers key)⟩

end Main

end HashBench.KeyTraits
