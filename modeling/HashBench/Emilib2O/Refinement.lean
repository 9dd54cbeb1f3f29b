import HashBench.Emilib2O.Runs
import Mathlib.Data.BitVec

/-! What a table reached by a run does: it is the finite map of its calls as
long as every insertion fits, and no longer. -/
namespace HashBench.Emilib2O

open Search OpenAddressing

variable {K V : Type} {bp : Blueprint K V} {memory : Nat → K × V} {t : Table K V}
  {present : K → Bool}

/-- What the search for a key returns: an iterator at the bucket of the key. -/
def LooksUp (bp : Blueprint K V) (t : Table K V) (key : K) (isPresent : Bool) : Prop :=
  ∃ itr, ReturnsTo (fun fuel => Shim.find bp fuel t key) itr ∧
    Shim.isItrValid t itr = isPresent ∧
    (isPresent = true → itr < t.numBuckets ∧ t.isFilled itr = true ∧
      bp.cmprKeys (Shim.getKeyFromItr t itr) key = true)

/-- The table is a finite map of the keys present, and the table that the test
for its load leaves has a bucket without an entry in the probe of every key. -/
structure Refines (bp : Blueprint K V) (memory : Nat → K × V) (t : Table K V)
    (present : K → Bool) : Prop where
  lookup : ∀ key, LooksUp bp t key (present key)
  once : ∀ p < t.numBuckets, ∀ q < t.numBuckets, t.isFilled p = true → t.isFilled q = true →
    bp.cmprKeys (t.pairs p).1 (t.pairs q).1 = true → p = q
  stored : ∀ key, present key = true ↔ ∃ p < t.numBuckets, t.isFilled p = true ∧
    bp.cmprKeys (t.pairs p).1 key = true
  size : ∃ order, bp.Enumerates order present ∧ order.length = t.numFilled
  room : ∀ u, ReturnsTo (fun fuel => (reserve bp memory fuel t t.numFilled).run) (.ok u) →
    ∀ key, (∃ round b, KeyWithin bp u key round b ∧ u.emptyDelete b = true) ∧
      ∀ offset, ∃ found, ReturnsTo (fun fuel => findEmptySlot fuel u (mainBucket bp u key)
        (u.probe (mainBucket bp u key) offset) offset) found

theorem holdsKey_iff {b : Nat} {key : K} : HoldsKey bp t b key ↔
    t.isFilled b = true ∧ bp.cmprKeys (t.pairs b).1 key = true := by
  constructor
  · rintro ⟨e, hLive, hEq⟩
    obtain ⟨hFilled, rfl⟩ := slots_eq_live_iff.mp hLive
    exact ⟨hFilled, hEq⟩
  · rintro ⟨hFilled, hEq⟩
    exact ⟨_, slots_eq_live_iff.mpr ⟨hFilled, rfl⟩, hEq⟩

/-- Below the load factor the loop for a bucket ends at one of the probe. -/
theorem Reserved.room_left {u : Table K V} (h : Reserved bp memory t u) (key : K) :
    (∃ round b, KeyWithin bp u key round b ∧ u.emptyDelete b = true) ∧
      ∀ offset, ∃ found, ReturnsTo (fun fuel => findEmptySlot fuel u (mainBucket bp u key)
        (u.probe (mainBucket bp u key) offset) offset) found := by
  constructor
  · obtain ⟨i, _, b, hWithin, hFree⟩ := h.wellFormed.exists_free_round h.room key (Nat.le_refl 7)
    exact ⟨7 + i, b, hWithin, by rw [emptyDelete_eq, hFree]; rfl⟩
  · intro offset
    obtain ⟨b, d, hRun, _⟩ := findEmptySlot_returns h.wellFormed h.room key offset
    exact ⟨_, hRun⟩

namespace Ready

theorem present_iff (h : Ready bp t present) (key : K) : present key = true ↔
    ∃ p < t.numBuckets, HoldsKey bp t p key := by
  rw [h.holds key, exists_holdsKey_iff]

theorem looksUp (h : Ready bp t present) (key : K) : LooksUp bp t key (present key) := by
  obtain ⟨found, hFind, ⟨round, _, hWithin, hHolds⟩ | ⟨rfl, hAbsent⟩⟩ :=
    find_returns h.wellFormed key
  · have hPresent := (h.present_iff key).mpr ⟨found, hWithin.2, hHolds⟩
    refine ⟨found, hFind, ?_, fun _ => ⟨hWithin.2, holdsKey_iff.mp hHolds⟩⟩
    rw [hPresent, Shim.isItrValid, decide_eq_true_eq]
    exact hWithin.2.ne
  · have hPresent : present key = false := by
      rw [← Bool.not_eq_true, h.present_iff]
      rintro ⟨p, hp, hHolds⟩
      exact hAbsent p (hHolds.near h.kept hp) hHolds
    refine ⟨t.numBuckets, hFind, ?_, fun hTrue => ?_⟩
    · rw [hPresent, Shim.isItrValid, decide_eq_false_iff_not, not_not]
    · rw [hPresent] at hTrue
      cases hTrue

theorem once (h : Ready bp t present) {p q : Nat} (hp : p < t.numBuckets) (hq : q < t.numBuckets)
    (hFilled : t.isFilled p = true) (hFilled' : t.isFilled q = true)
    (hEq : bp.cmprKeys (t.pairs p).1 (t.pairs q).1 = true) : p = q :=
  slot_unique h.kept.nodup hp hq (slots_eq_live_iff.mpr ⟨hFilled, rfl⟩)
    (slots_eq_live_iff.mpr ⟨hFilled', rfl⟩) (bp.cls_eq_iff.mpr hEq)

theorem refines (h : Ready bp t present) (memory : Nat → K × V) : Refines bp memory t present := by
  refine ⟨h.looksUp, fun p hp q hq => h.once hp hq, fun key => ?_, ?_, fun u hRun => ?_⟩
  · simp only [h.present_iff, holdsKey_iff]
  · obtain ⟨order, hOrder, hLength⟩ := h.holds.exists_order bp h.kept.nodup
    rw [Multiset.card_map, h.wellFormed.count] at hLength
    exact ⟨order, hOrder, hLength⟩
  · rcases reserve_returns h.wellFormed memory with ⟨u', hRun', _, hReserved⟩ | ⟨hRun', _⟩
    · obtain rfl := Except.ok.inj (hRun'.unique hRun)
      exact hReserved.room_left
    · cases hRun'.unique hRun

end Ready

/-- The iterator of a present key is at a bucket that one of the first 256
rounds reads. -/
theorem Refines.reached (h : Refines bp memory t present) (hWell : WellFormed bp t) {key : K}
    (hPresent : present key = true) : ∃ round < 2 ^ 8, ∃ b, KeyWithin bp t key round b ∧
      t.isFilled b = true ∧ bp.cmprKeys (t.pairs b).1 key = true := by
  obtain ⟨itr, hFind, _, hItr⟩ := h.lookup key
  obtain ⟨hLt, _⟩ := hItr hPresent
  obtain ⟨found, hFind', ⟨round, hRound, hWithin, hHolds⟩ | ⟨rfl, _⟩⟩ := find_returns hWell key
  · exact ⟨round, hRound.trans_lt (hWell.byte _), found, hWithin, holdsKey_iff.mp hHolds⟩
  · exact absurd (hFind.unique hFind') hLt.ne

/-- A table with a lost pair is no map. -/
theorem Lost.not_refines (h : Lost bp t) (hWell : WellFormed bp t) : ¬ Refines bp memory t present := by
  intro hRefines
  obtain ⟨p, hp, e, hLive, hFar⟩ := h
  obtain ⟨hFilled, rfl⟩ := slots_eq_live_iff.mp hLive
  have hPresent := (hRefines.stored _).mpr ⟨p, hp, hFilled, bp.cmprKeys_refl _⟩
  obtain ⟨round, hRound, b, hWithin, hFilled', hEq⟩ := hRefines.reached hWell hPresent
  obtain rfl := hRefines.once b hWithin.2 p hp hFilled' hFilled hEq
  exact hFar round hRound hWithin

/-- The calls are refined up to any of them. -/
def RunRefines (bp : Blueprint K V) (memory : Nat → K × V) (ops : List (Op K)) : Prop :=
  ∀ before after, ops = before ++ after → ∃ t,
    ReturnsTo (fun fuel => (Shim.run bp memory fuel before).run) (.ok t) ∧
      Refines bp memory t (bp.present before)

theorem RunRefines.left {before after : List (Op K)} (h : RunRefines bp memory (before ++ after)) :
    RunRefines bp memory before := by
  rintro first rest rfl
  exact h first (rest ++ after) (List.append_assoc ..)

theorem RunFits.refines {ops : List (Op K)} (h : RunFits bp memory ops) :
    RunRefines bp memory ops := by
  rintro before after rfl
  obtain ⟨t, hRun, hReady⟩ := h.left.ready
  exact ⟨t, hRun, hReady.refines memory⟩

/-- A run refines the finite map exactly if every insertion fits. -/
theorem emilib2O_run_refines_iff (bp : Blueprint K V) (memory : Nat → K × V) (ops : List (Op K)) :
    RunRefines bp memory ops ↔ RunFits bp memory ops := by
  refine ⟨fun hRefines => ?_, RunFits.refines⟩
  induction ops using List.reverseRecOn with
  | nil => exact RunFits.nil
  | append_singleton ops op ih =>
      have hFits := ih hRefines.left
      refine hFits.concat ?_
      rintro key rfl t hRun
      obtain ⟨t', hRun', hReady⟩ := hFits.ready
      obtain rfl := Except.ok.inj (hRun.unique hRun')
      obtain ⟨last, hLast, hMap⟩ := hRefines (ops ++ [.insert key]) [] (List.append_nil _).symm
      simp only [run_concat] at hLast
      by_contra hNot
      rcases hReady.insert_lost hNot with hCall | ⟨lost, hCall, hWell, hLost⟩
      · cases hLast.unique (hRun.andThen hCall)
      · obtain rfl := Except.ok.inj (hLast.unique (hRun.andThen hCall))
        exact hLost.not_refines hWell hMap

section Crowd

/-- Keys that are in the groups of so many rounds are no more than these hold. -/
theorem length_le_of_rounds (t : Table K V) {keys : List K} (main : Nat) {rounds : Nat}
    (hNodup : keys.Pairwise fun k₁ k₂ => bp.cmprKeys k₁ k₂ = false)
    (hReached : ∀ key ∈ keys, ∃ round < rounds, ∃ b, InGroup (t.probe main round) b ∧
      bp.cmprKeys (t.pairs b).1 key = true) : keys.length ≤ rounds * simdBytes := by
  choose! round hRound bucket hGroup hEq using hReached
  have hBuckets : (keys.map bucket).Nodup := by
    rw [List.Nodup, List.pairwise_map]
    refine hNodup.imp_of_mem fun {k₁ k₂} hk₁ hk₂ hNe hSame => ?_
    have hBoth := bp.cmprKeys_trans (bp.cmprKeys_symm (hEq k₁ hk₁)) (hSame ▸ hEq k₂ hk₂)
    rw [hNe] at hBoth
    cases hBoth
  have hSubset : (keys.map bucket).toFinset ⊆ (Finset.range rounds).biUnion fun round =>
      Finset.Ico (t.probe main round) (t.probe main round + simdBytes) := by
    intro b hb
    obtain ⟨key, hKey, rfl⟩ := List.mem_map.mp (List.mem_toFinset.mp hb)
    exact Finset.mem_biUnion.mpr ⟨round key, Finset.mem_range.mpr (hRound key hKey),
      Finset.mem_Ico.mpr (hGroup key hKey)⟩
  have hOne (start : Nat) : (Finset.Ico start (start + simdBytes)).card ≤ simdBytes := by
    rw [Nat.card_Ico, Nat.add_sub_cancel_left]
  calc keys.length
      = (keys.map bucket).toFinset.card := by
        rw [List.toFinset_card_of_nodup hBuckets, List.length_map]
    _ ≤ _ := Finset.card_le_card hSubset
    _ ≤ (Finset.range rounds).card * simdBytes :=
        Finset.card_biUnion_le_card_mul _ _ _ fun _ _ => hOne _
    _ = rounds * simdBytes := by rw [Finset.card_range]

/-- The present keys of one main bucket are in the groups of 256 rounds. -/
theorem Refines.length_le (h : Refines bp memory t present) (hWell : WellFormed bp t)
    {keys : List K} {main : Nat} (hNodup : keys.Pairwise fun k₁ k₂ => bp.cmprKeys k₁ k₂ = false)
    (hPresent : ∀ key ∈ keys, present key = true)
    (hMain : ∀ key ∈ keys, mainBucket bp t key = main) : keys.length ≤ 2 ^ 8 * simdBytes := by
  refine length_le_of_rounds t main hNodup fun key hKey => ?_
  obtain ⟨round, hRound, b, hWithin, _, hEq⟩ := h.reached hWell (hPresent key hKey)
  rw [KeyWithin, hMain key hKey] at hWithin
  exact ⟨round, hRound, b, hWithin.1, hEq⟩

/-- The keys of one insertion each are present. -/
theorem present_insertions (bp : Blueprint K V) {keys : List K} {key : K} (hKey : key ∈ keys) :
    bp.present (keys.map .insert) key = true := by
  induction keys using List.reverseRecOn with
  | nil => cases hKey
  | append_singleton keys last ih =>
      rw [List.map_append, List.map_singleton, Blueprint.present_concat, Blueprint.apply,
        Bool.or_eq_true]
      rcases List.mem_append.mp hKey with hOld | hLast
      · exact Or.inr (ih hOld)
      · rw [List.mem_singleton.mp hLast]
        exact Or.inl (bp.cmprKeys_refl _)

/-- More keys than the groups of 256 rounds have buckets. -/
def crowd : List (BitVec 32) := (List.range 4097).map (BitVec.ofNat 32)

theorem crowd_nodup : crowd.Nodup := by
  refine List.nodup_range.map_on fun i hi j hj hSame => ?_
  have hNat := congrArg BitVec.toNat hSame
  rw [List.mem_range] at hi hj
  rwa [BitVec.toNat_ofNat, BitVec.toNat_ofNat, Nat.mod_eq_of_lt (by omega),
    Nat.mod_eq_of_lt (by omega)] at hNat

/-- With one hash for all keys, not all of 4097 are found again. -/
theorem crowd_not_refined : ¬ RunRefines (Blueprint.ofEq (fun _ : BitVec 32 => 0) ())
    (fun _ => (0, ())) (crowd.map .insert) := by
  intro hRefines
  obtain ⟨t, hRun, hMap⟩ := hRefines _ [] (List.append_nil _).symm
  have hDistinct : crowd.Pairwise fun k₁ k₂ =>
      (Blueprint.ofEq (fun _ : BitVec 32 => 0) ()).cmprKeys k₁ k₂ = false :=
    crowd_nodup.imp fun hNe => decide_eq_false hNe
  have hMain (key : BitVec 32) :
      mainBucket (Blueprint.ofEq (fun _ : BitVec 32 => 0) ()) t key = 0 := Nat.zero_and _
  have hLength := hMap.length_le (WellFormed.of_run hRun) hDistinct
    (fun key => present_insertions _) fun key _ => hMain key
  rw [crowd, List.length_map, List.length_range] at hLength
  exact absurd hLength (by decide)

end Crowd

end HashBench.Emilib2O
