import HashBench.Khash.Iterator
import HashBench.Khash.Bounds

/-! With a load factor from one half to one, the table that a run reaches is the
finite map of its calls. Its buckets may all be taken. Below one half no run with
many keys keeps to the bound. -/
namespace HashBench.Khash

open Search Triangular Iteration OpenAddressing Memory

variable {K V : Type}

/-- The pairs of a table in the order of their buckets. -/
def pairs (h : Table K V) : List (K × V) :=
  (usedFrom (khExist h) h.nBuckets 0).map fun p => (h.keys.cell p, h.vals.cell p)

/-- What the search for a key returns: the bucket of the key, or no valid iterator. -/
def LooksUp (bp : Blueprint K V) (h : Table K V) (key : K) (isPresent : Bool) : Prop :=
  ∃ itr, ReturnsTo (fun fuel => (Shim.find bp fuel h key).run) (.ok itr) ∧
    Shim.isItrValid h itr = isPresent ∧
    (isPresent = true → Occupied h itr ∧ bp.cmprKeys (Shim.getKeyFromItr h itr) key = true)

/-- The table is a finite map of the keys present. Every call on it ends, and a
resize of either kind keeps its pairs. -/
structure Refines (maxLoadFactor : ℚ) (bp : Blueprint K V) (h : Table K V) (present : K → Bool) :
    Prop where
  lookup : ∀ key, LooksUp bp h key (present key)
  holds : ∀ key, present key = holdsKey bp h key
  once : ∀ p q, Occupied h p → Occupied h q →
    bp.cmprKeys (Shim.getKeyFromItr h p) (Shim.getKeyFromItr h q) = true → p = q
  calls : ∀ op, Returns fun fuel => Shim.call maxLoadFactor bp fuel h op
  rehash : ∀ m, m = khintPred h.nBuckets ∨ m = khintSucc h.nBuckets →
    ∃ h', ReturnsTo (fun fuel => (khResize maxLoadFactor bp fuel h m).run) (.ok h') ∧
      (pairs h').Perm (pairs h)

namespace Sound

variable {maxLoadFactor : ℚ} {bp : Blueprint K V} {h : Table K V} {stored : Multiset (K × V)}
  {present : K → Bool} {key : K}

theorem coe_pairs (hSound : Sound maxLoadFactor bp h stored) :
    (pairs h : Multiset (K × V)) = stored := by
  have hUsed : khExist h = fun p => (slots h p).isLive := by
    funext p
    exact slotOf_isLive.symm
  have hPairs := Counted.coe_usedFrom (fun p => (h.keys.cell p, h.vals.cell p)) id (slots h)
    h.nBuckets fun p _ e hLive => (slotOf_eq_live_iff.mp hLive).2
  rw [pairs, hUsed, hPairs, hSound.counted.contents_eq, Multiset.map_id]

theorem holdsKey_iff_mem (hSound : Sound maxLoadFactor bp h stored) :
    holdsKey bp h key = true ↔ bp.cls key ∈ classes bp stored := by
  rw [holdsKey_iff, mem_classes]
  constructor
  · rintro ⟨p, hp, hLive, hEq⟩
    exact ⟨_, hSound.counted.mem_stored.mpr ⟨p, hp, khExist_iff.mp hLive⟩, hEq⟩
  · rintro ⟨e, he, hEq⟩
    obtain ⟨p, hp, hLive⟩ := hSound.counted.mem_stored.mp he
    obtain ⟨hNeither, rfl⟩ := slotOf_eq_live_iff.mp hLive
    exact ⟨p, hp, by rw [khExist, hNeither]; rfl, hEq⟩

theorem looksUp (hSound : Sound maxLoadFactor bp h stored) (key : K) :
    LooksUp bp h key (holdsKey bp h key) := by
  obtain ⟨r, hReturns⟩ := hSound.khGet_returns key
  obtain ⟨fuel, hRun⟩ := hReturns.exists_fuel
  obtain ⟨itr, rfl, ⟨hItr, e, he, hLive, hEq⟩ | ⟨rfl, hAbsent⟩⟩ := hSound.khGet_returned hRun
  · obtain ⟨hNeither, rfl⟩ := slotOf_eq_live_iff.mp hLive
    have hPresent : holdsKey bp h key = true :=
      hSound.holdsKey_iff_mem.mpr (mem_classes.mpr ⟨_, he, hEq⟩)
    refine ⟨itr, hReturns, ?_, fun _ => ⟨⟨hItr, by rw [khExist, hNeither]; rfl⟩, hEq⟩⟩
    rw [hPresent, isItrValid_of_le hItr.le, decide_eq_true hItr]
  · have hNot : holdsKey bp h key = false := Bool.eq_false_iff.mpr fun hPresent =>
      notMem_classes.mpr hAbsent (hSound.holdsKey_iff_mem.mp hPresent)
    refine ⟨_, hReturns, ?_, fun hPresent => ?_⟩
    · rw [hNot, isItrValid_of_le le_rfl, decide_eq_false (lt_irrefl _)]
    · rw [hNot] at hPresent
      cases hPresent

theorem rehash (hSound : Sound maxLoadFactor bp h stored) (hHigh : maxLoadFactor ≤ 1) {m : Nat}
    (hm : m = khintPred h.nBuckets ∨ m = khintSucc h.nBuckets) :
    ∃ h', ReturnsTo (fun fuel => (khResize maxLoadFactor bp fuel h m).run) (.ok h') ∧
      (pairs h').Perm (pairs h) := by
  obtain ⟨k, hTwo, hk, hSize⟩ := roundBuckets_buckets hSound.buckets hm
  have hRoom : Refuses maxLoadFactor h m ∨ h.size ≤ roundBuckets m := by
    rcases Nat.lt_or_ge h.size (upperBoundOf maxLoadFactor (roundBuckets m)) with hLt | hRefuses
    · exact Or.inr (hLt.le.trans (upperBoundOf_le hHigh _))
    · exact Or.inl hRefuses
  obtain ⟨r, hReturns⟩ := hSound.khResize_returns hSize hRoom
  obtain ⟨fuel, hRun⟩ := hReturns.exists_fuel
  obtain ⟨h', rfl, hSound', _⟩ := hSound.khResize_returned hTwo hk hSize hRun
  exact ⟨h', hReturns, Multiset.coe_eq_coe.mp (hSound'.coe_pairs.trans hSound.coe_pairs.symm)⟩

theorem refines (hSound : Sound maxLoadFactor bp h stored) (hHigh : maxLoadFactor ≤ 1)
    (hHolds : bp.Holds (classes bp stored) present) : Refines maxLoadFactor bp h present := by
  have hPresent (key : K) : present key = holdsKey bp h key :=
    Bool.eq_iff_iff.mpr ((hHolds key).trans hSound.holdsKey_iff_mem.symm)
  exact ⟨fun key => hPresent key ▸ hSound.looksUp key, hPresent,
    fun p q hp hq => hSound.once hp.1 hq.1 hp.2 hq.2, hSound.call_returns hHigh,
    fun m hm => hSound.rehash hHigh hm⟩

end Sound

/-- A table between two calls of a run, with these keys. Only the largest one may
exceed its bound. -/
def Ready (maxLoadFactor : ℚ) (bp : Blueprint K V) (h : Table K V) (present : K → Bool) : Prop :=
  (h.nOccupied ≤ h.upperBound ∨ h.nBuckets = 2 ^ 31) ∧
    ∃ stored, Sound maxLoadFactor bp h stored ∧ bp.Holds (classes bp stored) present

section Runs

variable {maxLoadFactor : ℚ} {memory : Nat → K × V} {bp : Blueprint K V} {ops : List (Op K)}

/-- One call on a table that has fewer than 2 ^ 31 keys before and after it. -/
theorem call_ready (hLow : 1 / 2 ≤ maxLoadFactor) (hHigh : maxLoadFactor ≤ 1) {op : Op K}
    (hFew : bp.Fewer (2 ^ 31) (ops ++ [op])) {h : Table K V}
    (hReady : Ready maxLoadFactor bp h (bp.present ops)) :
    ∃ h', ReturnsTo (fun fuel => (Shim.call maxLoadFactor bp fuel h op).run) (.ok h') ∧
      Ready maxLoadFactor bp h' (bp.present (ops ++ [op])) := by
  obtain ⟨hBound, stored, hSound, hHolds⟩ := hReady
  obtain ⟨r, hReturns⟩ := hSound.call_returns hHigh op
  obtain ⟨fuel, hRun⟩ := hReturns.exists_fuel
  rw [Blueprint.present_concat]
  cases op with
  | erase key =>
      obtain ⟨h', stored', rfl, hSound', hBuckets, hUpper, hCount, hKeys⟩ :=
        hSound.erase_returned hRun
      refine ⟨h', hReturns, ?_, stored', hSound', ?_⟩
      · rwa [hBuckets, hUpper, hCount]
      · rcases hKeys with ⟨hAbsent, rfl⟩ | hTaken
        · exact hHolds.erase_absent hAbsent
        · have hNodup := hSound.nodup
          rw [hTaken] at hHolds hNodup
          exact hHolds.erase_stored hNodup
  | insert key =>
      obtain ⟨h₁, hMade, hSound₁, hCases⟩ := hSound.insert_returned hRun
      have hNow : stored.card < 2 ^ 31 := by
        have hCard := hFew.left.card_lt hHolds hSound.nodup
        rwa [classes, Multiset.card_map] at hCard
      have hSize : h₁.size = stored.card := hSound₁.size_eq
      have hUpper := upperBoundOf_le hHigh h₁.nBuckets
      rw [← hSound₁.upperBound_eq] at hUpper
      -- A bucket without a pair is left, within the bound or in the largest table.
      have hRoom : h₁.size < h₁.nBuckets ∧
          (h₁.nOccupied < h₁.upperBound ∨ h₁.nBuckets = 2 ^ 31) := by
        rcases hMade with ⟨hLt, rfl⟩ | ⟨_, ⟨hRefuses, rfl⟩ | ⟨hAccepts, hRound, hCount⟩⟩
        · exact ⟨(hSound₁.size_le.trans_lt hLt).trans_le hUpper, Or.inl hLt⟩
        · have hLast := (hSound.refuses_last hLow hHigh hBound hRefuses).1
          exact ⟨by omega, Or.inr hLast⟩
        · have hLt : h₁.nOccupied < h₁.upperBound := by
            rw [hCount, hSound₁.upperBound_eq, hRound]
            exact Nat.lt_of_not_le hAccepts
          exact ⟨(hSound₁.size_le.trans_lt hLt).trans_le hUpper, Or.inl hLt⟩
      rcases hCases with ⟨hZero, _⟩ | ⟨_, h', stored', x, rfl, hSound', _, _, hBuckets, hUpper',
        hCount, hKeys⟩
      · omega
      refine ⟨h', hReturns, ?_, stored', hSound', ?_⟩
      · rw [hBuckets, hUpper']
        exact hRoom.2.imp_left fun hLt => by omega
      · rcases hKeys with ⟨hSame, hPresent⟩ | ⟨_, hNew⟩
        · rw [hSame]
          exact hHolds.insert_old (hPresent.resolve_right (Nat.ne_of_lt hRoom.1))
        · rw [hNew]
          exact hHolds.insert_new key

theorem run_ready (hLow : 1 / 2 ≤ maxLoadFactor) (hHigh : maxLoadFactor ≤ 1)
    (memory : Nat → K × V) (hFew : bp.Fewer (2 ^ 31) ops) :
    ∃ h, ReturnsTo (fun fuel => (Shim.run maxLoadFactor memory bp fuel ops).run) (.ok h) ∧
      Ready maxLoadFactor bp h (bp.present ops) := by
  induction ops using List.reverseRecOn with
  | nil =>
      exact ⟨init memory, ReturnsTo.pure _, Or.inl le_rfl, 0, init_sound maxLoadFactor memory bp,
        Blueprint.Holds.empty⟩
  | append_singleton ops op ih =>
      obtain ⟨h, hRun, hReady⟩ := ih hFew.left
      obtain ⟨h', hCall, hReady'⟩ := call_ready hLow hHigh hFew hReady
      simp only [run_concat]
      exact ⟨h', hRun.andThen hCall, hReady'⟩

/-- Every run with fewer than 2 ^ 31 keys reaches a finite map of its calls. -/
theorem khash_refines (hLow : 1 / 2 ≤ maxLoadFactor) (hHigh : maxLoadFactor ≤ 1)
    (memory : Nat → K × V) (bp : Blueprint K V) (ops : List (Op K)) (hFew : bp.Fewer (2 ^ 31) ops) :
    ∃ h, ReturnsTo (fun fuel => (Shim.run maxLoadFactor memory bp fuel ops).run) (.ok h) ∧
      Refines maxLoadFactor bp h (bp.present ops) := by
  obtain ⟨h, hRun, _, stored, hSound, hHolds⟩ := run_ready hLow hHigh memory hFew
  exact ⟨h, hRun, hSound.refines hHigh hHolds⟩

/-- From one half on, a run that keeps to 2 ^ 30 keys stays within the bounds. -/
theorem khash_within_of_half (hLow : 1 / 2 ≤ maxLoadFactor) (hHigh : maxLoadFactor ≤ 1)
    (memory : Nat → K × V) (hFew : bp.Fewer (2 ^ 30 + 1) ops) :
    RunWithin maxLoadFactor memory bp ops := by
  refine (khash_within_iff hHigh memory bp ops).mpr ?_ ops [] (List.append_nil ops).symm
  rintro before key after rfl table hRun ⟨hFull, hRefuses, hNone⟩
  have hBefore : bp.Fewer (2 ^ 30 + 1) before := hFew.left
  obtain ⟨h, hReached, hBound, stored, hSound, hHolds⟩ :=
    run_ready hLow hHigh memory (hBefore.mono (by decide))
  cases hRun.unique hReached
  obtain ⟨hLast, hHalf⟩ := hSound.refuses_last hLow hHigh hBound hRefuses
  have hAbsent := notMem_classes.mpr (hSound.absent_of_claims (hNone.resolve_left (by omega)))
  have hNext : bp.Fewer (2 ^ 30 + 1) (before ++ [.insert key]) := by
    rw [← List.singleton_append, ← List.append_assoc] at hFew
    exact hFew.left
  have hAfter := hHolds.insert_new key
  rw [← Blueprint.present_concat] at hAfter
  have hCard := hNext.card_lt hAfter (Multiset.nodup_cons.mpr ⟨hAbsent, hSound.nodup⟩)
  have hSize := hSound.size_eq
  rw [Multiset.card_cons, classes, Multiset.card_map] at hCard
  omega

/-- A table between two calls of a run that has kept to its bound, with these keys. It
has not grown past this size. -/
def Stays (maxLoadFactor : ℚ) (bp : Blueprint K V) (n : Nat) (h : Table K V)
    (present : K → Bool) : Prop :=
  Within h ∧ h.nBuckets ≤ 2 ^ n ∧
    ∃ stored, Sound maxLoadFactor bp h stored ∧ bp.Holds (classes bp stored) present

theorem Stays.call {h h' : Table K V} {present : K → Bool} {op : Op K} {n : Nat} (hLow : 2 ≤ n)
    (hn : n ≤ 31) (hHalf : maxLoadFactor ≤ 1 / 2)
    (hSmall : 2 * upperBoundOf maxLoadFactor (2 ^ n) < 2 ^ n)
    (hStays : Stays maxLoadFactor bp n h present) {fuel : Nat}
    (hRun : (Shim.call maxLoadFactor bp fuel h op).run = some (.ok h')) (hWithin : Within h') :
    Stays maxLoadFactor bp n h' (bp.apply present op) := by
  obtain ⟨hBefore, hBuckets, stored, hSound, hHolds⟩ := hStays
  cases op with
  | erase key =>
      obtain ⟨_, stored', hOk, hSound', hSame, _, _, hKeys⟩ := hSound.erase_returned hRun
      cases hOk
      refine ⟨hWithin, hSame.trans_le hBuckets, stored', hSound', ?_⟩
      rcases hKeys with ⟨hAbsent, rfl⟩ | hTaken
      · exact hHolds.erase_absent hAbsent
      · have hNodup := hSound.nodup
        rw [hTaken] at hHolds hNodup
        exact hHolds.erase_stored hNodup
  | insert key =>
      obtain ⟨h₁, hMade, hSound₁, ⟨_, hError⟩ | ⟨hPos, _, stored', _, hOk, hSound', _, _, hSame,
        _, _, hKeys⟩⟩ := hSound.insert_returned hRun
      · cases hError
      cases hOk
      have hBuckets₁ : h₁.nBuckets ≤ 2 ^ n ∧ h₁.size ≤ upperBoundOf maxLoadFactor h₁.nBuckets := by
        have hSize := hSound.size_le.trans (hBefore.1.trans hSound.upperBound_eq.le)
        rcases hMade with ⟨_, rfl⟩ | ⟨_, ⟨_, rfl⟩ | ⟨hAccepts, hRound, _⟩⟩
        · exact ⟨hBuckets, hSize⟩
        · exact ⟨hBuckets, hSize⟩
        · rw [hRound, hSound₁.size_eq, ← hSound.size_eq]
          exact ⟨hSound.requested_le hBefore hLow hn hSmall hBuckets, (Nat.lt_of_not_le hAccepts).le⟩
      refine ⟨hWithin, hSame.trans_le hBuckets₁.1, stored', hSound', ?_⟩
      rcases hKeys with ⟨hClasses, hPresent | hFull⟩ | ⟨_, hNew⟩
      · exact hClasses ▸ hHolds.insert_old hPresent
      · have hTwo : 2 ≤ h₁.nBuckets := by
          rcases hSound₁.buckets with hZero | ⟨k, hk, _, hEq⟩
          · exact absurd hZero hPos
          · have hFour : 2 ^ 2 ≤ 2 ^ k := Nat.pow_le_pow_right Nat.two_pos hk
            omega
        have hLess := upperBoundOf_lt_self hHalf hTwo
        omega
      · exact hNew ▸ hHolds.insert_new key

/-- Below one half the table of a run within the bounds stops growing at a size of
which less than half may be filled, so that no run with more keys keeps to them. -/
theorem khash_fewer_of_within {n : Nat} (hPos : 0 < maxLoadFactor) (hLow : 2 ≤ n) (hn : n ≤ 31)
    (hHalf : 1 < (2 ^ n : ℚ) * (1 - 2 * maxLoadFactor)) (memory : Nat → K × V)
    (hAll : ∀ before after, ops = before ++ after → RunWithin maxLoadFactor memory bp before) :
    bp.Fewer (upperBoundOf maxLoadFactor (2 ^ n) + 1) ops := by
  have hPow : (0 : ℚ) < 2 ^ n := by positivity
  have hBelow := pos_of_mul_pos_right (zero_lt_one.trans hHalf) hPow.le
  have hSmall := two_mul_upperBoundOf_lt hPos hn hHalf
  have hStays : ∀ before after, ops = before ++ after → ∃ h, ReturnsTo (fun fuel =>
      (Shim.run maxLoadFactor memory bp fuel before).run) (.ok h) ∧
        Stays maxLoadFactor bp n h (bp.present before) := by
    intro before after hSplit
    induction before using List.reverseRecOn generalizing after with
    | nil =>
        exact ⟨init memory, ReturnsTo.pure _, init_within, Nat.zero_le _, 0,
          init_sound maxLoadFactor memory bp, Blueprint.Holds.empty⟩
    | append_singleton before op ih =>
        obtain ⟨h', hRun', hWithin⟩ := hAll _ after hSplit
        rw [List.append_assoc] at hSplit
        obtain ⟨h, hRun, hStays⟩ := ih _ hSplit
        refine ⟨h', hRun', ?_⟩
        simp only [run_concat] at hRun'
        obtain ⟨fuel, hCall⟩ := (hRun.andThen_iff.mp hRun').exists_fuel
        rw [Blueprint.present_concat]
        exact hStays.call hLow hn (by linarith) hSmall hCall hWithin
  intro before after hSplit order hOrder
  obtain ⟨h, _, hWithin, hBuckets, stored, hSound, hHolds⟩ := hStays before after hSplit
  have hSize := hSound.size_le.trans (hWithin.1.trans hSound.upperBound_eq.le)
  have hMono := upperBoundOf_mono hPos.le (by linarith) hBuckets
    (Nat.pow_le_pow_right Nat.two_pos hn)
  rw [hOrder.length_eq bp hHolds hSound.nodup, classes, Multiset.card_map, ← hSound.size_eq]
  omega

/-- Four keys of one hash fill the buckets of a table with a load factor of one. -/
theorem khash_refines_full :
    ∃ h, ReturnsTo (fun fuel => (Shim.run 1 (fun _ => (0, ())) (Blueprint.ofEq (fun _ => 1) ()) fuel
        [.insert 3, .insert 7, .insert 11, .insert 15]).run) (.ok h) ∧
      Refines 1 (Blueprint.ofEq (fun _ => 1) ()) h
        ((Blueprint.ofEq (fun _ : Nat => 1) ()).present
          [.insert 3, .insert 7, .insert 11, .insert 15]) :=
  khash_refines (by norm_num) le_rfl _ _ _ (.of_length (by decide))

end Runs

end HashBench.Khash
