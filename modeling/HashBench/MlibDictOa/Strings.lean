import HashBench.MlibDictOa.Refinement

/-! The open-addressing dictionary with C-string keys. The reserved keys are
told by their addresses but compared with other keys by their contents, and both
of them are empty strings. -/
namespace HashBench.MlibDictOa

open Search Triangular Iteration OpenAddressing

/-- The strings in memory, by the addresses at which they start, and the address
of `mlib_cstring_oor_sentinels`, whose two bytes are zero. -/
structure Strings where
  content : Nat → List UInt8
  sentinels : Nat
  content_sentinel : ∀ n < 2, content (sentinels + n) = []

namespace Strings

variable {V : Type} (strings : Strings)

def oor : Oor Nat where
  oorEqual k n := k == strings.sentinels + n
  oorSet n := strings.sentinels + n

/-- The hash of `cstring_uint64_fnv1a`. -/
def fnv1a (s : List UInt8) : Nat :=
  (s.foldl (fun hash (c : UInt8) => (c.toUInt64 ^^^ hash) * 0x100000001b3) 0xcbf29ce484222325).toNat

/-- The blueprint of C-strings, with any hash of the content. -/
def blueprint (hash : List UInt8 → Nat) (value : V) : Blueprint Nat V where
  hashKey key := hash (strings.content key)
  cmprKeys key₁ key₂ := strings.content key₁ == strings.content key₂
  valueType := value
  cmprKeys_refl _ := beq_self_eq_true _
  cmprKeys_symm h := beq_iff_eq.mpr (beq_iff_eq.mp h).symm
  cmprKeys_trans h h' := beq_iff_eq.mpr ((beq_iff_eq.mp h).trans (beq_iff_eq.mp h'))
  hashKey_congr h := congrArg hash (beq_iff_eq.mp h)

theorem oor_lawful : strings.oor.Lawful :=
  ⟨fun _ _ _ => beq_iff_eq, fun hEq => absurd (Nat.add_left_cancel hEq) (by decide)⟩

variable {strings} {hash : List UInt8 → Nat} {value : V} {key : Nat}

/-- The reserved keys compare equal to the empty string alone. -/
theorem cmprKeys_sentinel {n : Nat} (hn : n < 2) :
    (strings.blueprint hash value).cmprKeys (strings.oor.oorSet n) key = true ↔
      strings.content key = [] := by
  refine beq_iff_eq.trans ?_
  rw [show strings.content (strings.oor.oorSet n) = [] from strings.content_sentinel n hn, eq_comm]

theorem regular_of_ne_nil (h : strings.content key ≠ []) :
    Regular strings.oor (strings.blueprint hash value) key := fun _ hn =>
  Bool.eq_false_iff.mpr fun hEq => h ((cmprKeys_sentinel hn).mp hEq)

variable (strings) (hash) (value)

/-- After these calls a search finds the key if and only if it is present, its
erasure changes nothing if it is absent, and no reserved slot compares equal to
any of the keys in use. -/
def Agrees (memory : Nat → Pair Nat V) (keys : List Nat) (before : List (Op Nat)) (key : Nat) :
    Prop :=
  (∃ dict, ReturnsTo (fun fuel => (Shim.run (7 / 8) memory strings.oor
        (strings.blueprint hash value) fuel before).run) (.ok dict) ∧
      (∀ layout, ∃ itr, ReturnsTo (fun fuel => (Shim.find strings.oor
          (strings.blueprint hash value) layout fuel dict key).run) (.ok itr) ∧
        Shim.isItrValid dict itr = (strings.blueprint hash value).present before key) ∧
      ((strings.blueprint hash value).present before key = false →
        ∃ dict', ReturnsTo (fun fuel => (Shim.erase (7 / 8) strings.oor
            (strings.blueprint hash value) fuel dict key).run) (.ok dict') ∧
          dict'.count = dict.count ∧ dict'.mask = dict.mask ∧ dict'.data = dict.data) ∧
      ∀ p ≤ dict.mask, isUsed strings.oor dict.data p = false → ∀ k ∈ keys,
        (strings.blueprint hash value).cmprKeys (dict.data p).key k = false) ∨
    OutOfMemory (7 / 8) memory strings.oor (strings.blueprint hash value) before

variable {strings} {hash} {value}

/-- Without the empty string every state of a run agrees with the calls. -/
theorem agrees_of_ne_nil (memory : Nat → Pair Nat V) {keys : List Nat} {before : List (Op Nat)}
    (hKeys : ∀ k ∈ keys, strings.content k ≠ []) (hKey : key ∈ keys)
    (hOps : ∀ op ∈ before, op.key ∈ keys) : Agrees strings hash value memory keys before key := by
  have hLow : (5 / 8 : ℚ) ≤ 7 / 8 := by norm_num
  have hHigh : (7 / 8 : ℚ) < 1 := by norm_num
  have hRegular {k : Nat} (hk : k ∈ keys) :
      Regular strings.oor (strings.blueprint hash value) k := regular_of_ne_nil (hKeys k hk)
  rcases run_sound strings.oor_lawful hLow hHigh memory before
      fun op hOp => hRegular (hOps op hOp) with ⟨dict, hRun, hFilled, stored, hSound⟩ | hFull
  · have hTop := (hSound.limit_bounds hLow hHigh).2
    have hRoom : dict.countDelete < dict.mask + 1 := by omega
    refine Or.inl ⟨dict, hRun, fun layout => ?_, fun hAbsent => ?_, fun p _ hReserved k hk => ?_⟩
    · obtain ⟨itr, hFind, hValid, _⟩ :=
        hSound.looksUp strings.oor_lawful hRoom (hRegular hKey) layout
      exact ⟨itr, hFind, hValid⟩
    · obtain ⟨hErase, _⟩ :=
        hSound.erase_absent strings.oor_lawful hRoom (hRegular hKey) hAbsent
      exact ⟨dict, hErase, rfl, rfl, rfl⟩
    · rw [isUsed, Bool.and_eq_false_iff, Bool.not_eq_false', Bool.not_eq_false'] at hReserved
      rcases hReserved with hEmpty | hDeleted
      · rw [(strings.oor_lawful.oorEqual_iff oaEmpty (by decide) _).mp hEmpty]
        exact hRegular hk oaEmpty (by decide)
      · rw [(strings.oor_lawful.oorEqual_iff oaDeleted (by decide) _).mp hDeleted]
        exact hRegular hk oaDeleted (by decide)
  · exact Or.inr hFull

/-- The empty slots of a new dictionary compare equal to the empty string. -/
theorem ne_nil_of_agrees {memory : Nat → Pair Nat V} {keys : List Nat}
    (h : Agrees strings hash value memory keys [] key) {k : Nat} (hk : k ∈ keys) :
    strings.content k ≠ [] := by
  have hRun : ReturnsTo (fun fuel => (Shim.run (7 / 8) memory strings.oor
      (strings.blueprint hash value) fuel []).run) (.ok (init (7 / 8) memory strings.oor)) :=
    ReturnsTo.pure _
  rcases h with ⟨dict, hDict, _, _, hReserved⟩ | ⟨hError, _⟩
  · obtain rfl := Except.ok.inj (hRun.unique hDict)
    have hUnused : isUsed strings.oor (init (7 / 8) memory strings.oor).data 0 = false := by
      have hEmpty : strings.oor.oorEqual (strings.oor.oorSet oaEmpty) oaEmpty = true :=
        strings.oor_lawful.oorEqual_set (by decide) (by decide)
      simp [isUsed, init, mark, hEmpty]
    have hDiffers := hReserved 0 (Nat.zero_le _) hUnused k hk
    intro hNil
    rw [show ((init (7 / 8) memory strings.oor).data 0).key = strings.oor.oorSet oaEmpty from rfl,
      (cmprKeys_sentinel (by decide)).mpr hNil] at hDiffers
    cases hDiffers
  · cases hRun.unique hError

/-- Every state of a run agrees with the calls, as long as none of the keys is
the empty string. -/
theorem mlibDictOa_cstring_iff (strings : Strings) (hash : List UInt8 → Nat) (value : V)
    (memory : Nat → Pair Nat V) (ops : List (Op Nat)) (key : Nat) :
    (∀ before after, ops = before ++ after →
        Agrees strings hash value memory (key :: ops.map Op.key) before key) ↔
      ∀ k ∈ key :: ops.map Op.key, strings.content k ≠ [] := by
  constructor
  · intro h k hk
    exact ne_nil_of_agrees (h [] ops rfl) hk
  · rintro hKeys before after rfl
    refine agrees_of_ne_nil memory hKeys List.mem_cons_self fun op hOp => ?_
    exact List.mem_cons_of_mem key (List.mem_map_of_mem (List.mem_append_left after hOp))

/-- A search for the empty string stops at the first slot of a new dictionary. -/
theorem probeFor_empty (memory : Nat → Pair Nat V)
    (hNil : strings.content key = []) :
    ReturnsTo (fun fuel => probeFor strings.oor (strings.blueprint hash value) (fun _ acc => acc) ()
      fuel (init (7 / 8) memory strings.oor) key) (0, ()) := by
  refine search_returnsTo (fun i hi => absurd hi (Nat.not_lt_zero i)) ?_ _ _
  rw [stops, Bool.or_eq_true]
  exact Or.inl ((cmprKeys_sentinel (by decide)).mpr hNil)

/-- The first slot of a new dictionary compares equal to the empty string. -/
theorem cmprKeys_init (memory : Nat → Pair Nat V) (hNil : strings.content key = []) (p : Nat) :
    (strings.blueprint hash value).cmprKeys ((init (7 / 8) memory strings.oor).data p).key key =
      true :=
  (cmprKeys_sentinel (by decide)).mpr hNil

/-- In a new dictionary the empty string is found. -/
theorem find_empty (hash : List UInt8 → Nat) (value : V) (memory : Nat → Pair Nat V)
    (hNil : strings.content key = []) (layout : Layout) :
    ∃ itr ≤ 15, ReturnsTo (fun fuel => (Shim.find strings.oor (strings.blueprint hash value) layout
      fuel (init (7 / 8) memory strings.oor) key).run) (.ok itr) := by
  let p := probe 15 (hash (strings.content key)) 0
  have hGet : ReturnsTo (fun fuel => (get strings.oor (strings.blueprint hash value) layout fuel
      (init (7 / 8) memory strings.oor) key).run) (.ok (some (valueAddress layout p))) := by
    refine (lift_returns (probeFor_empty memory hNil)).andThen ?_
    simp only [cmprKeys_init memory hNil, if_true]
    exact ReturnsTo.pure _
  refine ⟨p, Nat.and_le_right, hGet.andThen ?_⟩
  simp only [address_div]
  exact ReturnsTo.pure _

/-- In a new dictionary the erasure of the empty string lowers the count. -/
theorem erase_empty (hash : List UInt8 → Nat) (value : V) (memory : Nat → Pair Nat V)
    (hNil : strings.content key = []) :
    ∃ dict', ReturnsTo (fun fuel => (Shim.erase (7 / 8) strings.oor (strings.blueprint hash value)
      fuel (init (7 / 8) memory strings.oor) key).run) (.ok dict') ∧ dict'.count = 2 ^ 64 - 1 := by
  let dict := init (7 / 8) memory strings.oor
  let p := probe 15 (hash (strings.content key)) 0
  let removed : Dict Nat V := { dict with
    data := Function.update dict.data p (mark strings.oor oaDeleted (dict.data p))
    count := sizePred 0 }
  have hRemove (fuel : Nat) : removeAt (7 / 8) strings.oor (strings.blueprint hash value) fuel dict p =
      some removed := by
    unfold removeAt
    exact if_neg (show ¬ sizePred 0 < lowerLimitOf initialSize by decide)
  refine ⟨removed, (lift_returns (probeFor_empty memory hNil)).andThen ?_, rfl⟩
  simp only [if_true, cmprKeys_init memory hNil]
  exact lift_returns (Filter.Eventually.of_forall hRemove)

/-- Strings that are all empty. -/
def allEmpty : Strings := ⟨fun _ => [], 0, fun _ _ => rfl⟩

/-- In a new dictionary the empty string at address 2 is found, and its erasure
lowers the count below zero. -/
theorem mlibDictOa_cstring_empty :
    (∃ dict itr dict', ReturnsTo (fun fuel => (Shim.run (7 / 8) (fun _ => ⟨0, ()⟩) allEmpty.oor
        (allEmpty.blueprint fnv1a ()) fuel []).run) (.ok dict) ∧
      ReturnsTo (fun fuel => (Shim.find allEmpty.oor (allEmpty.blueprint fnv1a ())
        ⟨0, 16, 8, by decide⟩ fuel dict 2).run) (.ok itr) ∧ Shim.isItrValid dict itr = true ∧
      ReturnsTo (fun fuel => (Shim.erase (7 / 8) allEmpty.oor (allEmpty.blueprint fnv1a ()) fuel
        dict 2).run) (.ok dict') ∧ dict.count = 0 ∧ dict'.count = 2 ^ 64 - 1) ∧
    ¬ ∀ before after, ([] : List (Op Nat)) = before ++ after →
      Agrees allEmpty fnv1a () (fun _ => ⟨0, ()⟩) [2] before 2 := by
  have hNil : allEmpty.content 2 = [] := rfl
  obtain ⟨itr, hItr, hFind⟩ := find_empty fnv1a () (fun _ => ⟨0, ()⟩) hNil ⟨0, 16, 8, by decide⟩
  obtain ⟨dict', hErase, hCount⟩ := erase_empty fnv1a () (fun _ => ⟨0, ()⟩) hNil
  refine ⟨⟨_, itr, dict', ReturnsTo.pure _, hFind, ?_, hErase, rfl, hCount⟩,
    fun hAgrees => ne_nil_of_agrees (hAgrees [] [] rfl) (List.mem_singleton_self 2) rfl⟩
  exact (isItrValid_eq _ _).trans (decide_eq_true (Nat.lt_succ_of_le hItr))

end Strings

end HashBench.MlibDictOa
