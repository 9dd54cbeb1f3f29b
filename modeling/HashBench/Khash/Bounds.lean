import HashBench.Khash.Operations
import Mathlib.Tactic.Linarith

/-! When a table keeps to its bound and its arrays, for any load factor up to
one. An insertion relies on the resize to make room, and goes on as if it had
when the requested size is refused. -/
namespace HashBench.Khash

open Search Triangular OpenAddressing Memory

variable {K V : Type}

section Limits

variable {maxLoadFactor : ℚ}

theorem floor_le (hHigh : maxLoadFactor ≤ 1) (n : Nat) : ⌊(n : ℚ) * maxLoadFactor + 1 / 2⌋₊ ≤ n := by
  have hScaled : (n : ℚ) * maxLoadFactor ≤ n := mul_le_of_le_one_right n.cast_nonneg hHigh
  refine Nat.lt_succ_iff.mp ((Nat.floor_lt' (Nat.succ_ne_zero n)).mpr ?_)
  push_cast
  linarith

theorem upperBoundOf_le (hHigh : maxLoadFactor ≤ 1) (n : Nat) : upperBoundOf maxLoadFactor n ≤ n :=
  (Nat.mod_le _ _).trans (floor_le hHigh n)

theorem upperBoundOf_eq (hHigh : maxLoadFactor ≤ 1) {k : Nat} (hk : k ≤ 31) :
    upperBoundOf maxLoadFactor (2 ^ k) = ⌊(2 ^ k : ℚ) * maxLoadFactor + 1 / 2⌋₊ := by
  have hFloor := floor_le hHigh (2 ^ k)
  have hPow : 2 ^ k ≤ 2 ^ 31 := Nat.pow_le_pow_right Nat.zero_lt_two hk
  rw [upperBoundOf, Nat.mod_eq_of_lt (by omega), Nat.cast_pow, Nat.cast_ofNat]

theorem upperBoundOf_mono (hLow : 0 ≤ maxLoadFactor) (hHigh : maxLoadFactor ≤ 1) {n m : Nat}
    (hLe : n ≤ m) (hm : m ≤ 2 ^ 31) :
    upperBoundOf maxLoadFactor n ≤ upperBoundOf maxLoadFactor m := by
  have hFloor := floor_le hHigh m
  have hScaled : (n : ℚ) * maxLoadFactor ≤ m * maxLoadFactor :=
    mul_le_mul_of_nonneg_right (Nat.cast_le.mpr hLe) hLow
  rw [upperBoundOf, upperBoundOf, Nat.mod_eq_of_lt (show ⌊(m : ℚ) * maxLoadFactor + 1 / 2⌋₊ < 2 ^ 32
    by omega)]
  exact (Nat.mod_le _ _).trans (Nat.floor_le_floor (by linarith))

/-- Up to one half, not all buckets may be filled. -/
theorem upperBoundOf_lt_self (hHalf : maxLoadFactor ≤ 1 / 2) {n : Nat} (hn : 2 ≤ n) :
    upperBoundOf maxLoadFactor n < n := by
  refine (Nat.mod_le _ _).trans_lt ((Nat.floor_lt' (by omega)).mpr ?_)
  have hScaled : (n : ℚ) * maxLoadFactor ≤ n * (1 / 2) :=
    mul_le_mul_of_nonneg_left hHalf n.cast_nonneg
  have hTwo : (2 : ℚ) ≤ n := by exact_mod_cast hn
  linarith

/-- For load factors below one half: less than half of the buckets may be filled. -/
theorem two_mul_upperBoundOf_lt (hLow : 0 < maxLoadFactor) {n : Nat} (hn : n ≤ 31)
    (hHalf : 1 < (2 ^ n : ℚ) * (1 - 2 * maxLoadFactor)) :
    2 * upperBoundOf maxLoadFactor (2 ^ n) < 2 ^ n := by
  have hPow : (0 : ℚ) < 2 ^ n := by positivity
  have hHigh : maxLoadFactor ≤ 1 := by
    have hPos := pos_of_mul_pos_right (zero_lt_one.trans hHalf) hPow.le
    linarith
  have hScaled : 0 < (2 ^ n : ℚ) * maxLoadFactor := mul_pos hPow hLow
  have hFloor : (⌊(2 ^ n : ℚ) * maxLoadFactor + 1 / 2⌋₊ : ℚ) ≤ 2 ^ n * maxLoadFactor + 1 / 2 :=
    Nat.floor_le (by linarith)
  rw [upperBoundOf_eq hHigh hn]
  have hBelow : ((2 * ⌊(2 ^ n : ℚ) * maxLoadFactor + 1 / 2⌋₊ : Nat) : ℚ) < ((2 ^ n : Nat) : ℚ) := by
    push_cast
    linarith
  exact_mod_cast hBelow

/-- Half of the buckets at least may be filled. -/
theorem half_le_upperBoundOf (hLow : 1 / 2 ≤ maxLoadFactor) (hHigh : maxLoadFactor ≤ 1) {k : Nat}
    (hk : k ≤ 31) : 2 ^ k ≤ 2 * upperBoundOf maxLoadFactor (2 ^ k) := by
  have hHalf : (2 ^ k : ℚ) * (1 / 2) ≤ 2 ^ k * maxLoadFactor := by gcongr
  have hFloor := Nat.lt_floor_add_one ((2 ^ k : ℚ) * maxLoadFactor + 1 / 2)
  rw [← upperBoundOf_eq hHigh hk] at hFloor
  have hBelow : ((2 ^ k : Nat) : ℚ) < ((2 * upperBoundOf maxLoadFactor (2 ^ k) + 1 : Nat) : ℚ) := by
    push_cast
    linarith
  exact Nat.lt_succ_iff.mp (Nat.cast_lt.mp hBelow)

/-- Twice as many buckets leave room for one pair more. -/
theorem upperBoundOf_lt (hLow : 1 / 2 ≤ maxLoadFactor) (hHigh : maxLoadFactor ≤ 1) {k : Nat}
    (hPos : 1 ≤ k) (hk : k ≤ 30) :
    upperBoundOf maxLoadFactor (2 ^ k) < upperBoundOf maxLoadFactor (2 ^ (k + 1)) := by
  rw [upperBoundOf_eq hHigh (by omega), upperBoundOf_eq hHigh (by omega), ← Nat.succ_le_iff]
  have hTwo : (2 : ℚ) ^ 1 ≤ 2 ^ k := pow_le_pow_right₀ (by norm_num) hPos
  have hOne : (2 : ℚ) ^ 1 * (1 / 2) ≤ 2 ^ k * maxLoadFactor := by gcongr
  have hFloor : (⌊(2 ^ k : ℚ) * maxLoadFactor + 1 / 2⌋₊ : ℚ) ≤ 2 ^ k * maxLoadFactor + 1 / 2 :=
    Nat.floor_le (by linarith)
  refine Nat.le_floor ?_
  rw [Nat.cast_succ, pow_succ]
  linarith

end Limits

/-- A table that keeps to its bound. -/
def Within (h : Table K V) : Prop := h.nOccupied ≤ h.upperBound ∧ h.upperBound ≤ h.nBuckets

namespace Sound

variable {maxLoadFactor : ℚ} {bp : Blueprint K V} {h h' : Table K V} {stored : Multiset (K × V)}
  {key : K}

/-- With a load factor up to one every call returns. -/
theorem call_returns (hSound : Sound maxLoadFactor bp h stored) (hHigh : maxLoadFactor ≤ 1)
    (op : Op K) : Returns fun fuel => Shim.call maxLoadFactor bp fuel h op := by
  cases op with
  | insert key =>
      refine hSound.insert_returns ?_ key
      rcases Nat.lt_or_ge h.size (upperBoundOf maxLoadFactor (roundBuckets (requested h))) with
        hLt | hRefuses
      · exact Or.inr (hLt.le.trans (upperBoundOf_le hHigh _))
      · exact Or.inl hRefuses
  | erase key => exact hSound.erase_returns key

/-- From one half on, more room is refused only to a table that has the most
buckets there can be, half of them with pairs. -/
theorem refuses_last (hSound : Sound maxLoadFactor bp h stored) (hLow : 1 / 2 ≤ maxLoadFactor)
    (hHigh : maxLoadFactor ≤ 1) (hBound : h.nOccupied ≤ h.upperBound ∨ h.nBuckets = 2 ^ 31)
    (hRefuses : Refuses maxLoadFactor h (requested h)) :
    h.nBuckets = 2 ^ 31 ∧ h.nBuckets ≤ 2 * h.size := by
  have hSize : h.size ≤ upperBoundOf maxLoadFactor h.nBuckets ∨ h.nBuckets = 2 ^ 31 :=
    hBound.imp_left fun hLe => hSound.upperBound_eq ▸ hSound.size_le.trans hLe
  unfold Refuses requested at hRefuses
  rcases hSound.buckets with hZero | ⟨k, hTwo, hk, hEq⟩
  · have hFour := half_le_upperBoundOf hLow hHigh (show 2 ≤ 31 by decide)
    have hRound : roundBuckets (khintSucc 0) = 2 ^ 2 := by decide
    simp only [hZero, hRound, Nat.not_lt_zero, gt_iff_lt, if_false] at hRefuses hSize
    have hNone := upperBoundOf_le hHigh 0
    omega
  · rw [hEq] at hRefuses hSize ⊢
    have hHalf := half_le_upperBoundOf hLow hHigh hk
    have hTop := hSound.nBuckets_le
    have hLe := hSound.size_le.trans hSound.filled_le
    rw [hEq] at hTop hLe
    have hShift : (h.size <<< 1) % 2 ^ 32 = 2 * h.size ∨ h.size = 2 ^ 31 := by
      rw [Nat.shiftLeft_eq]
      omega
    split_ifs at hRefuses with hFew
    · rw [roundBuckets_pred hTwo hk] at hRefuses
      omega
    · rcases Nat.lt_or_eq_of_le hk with hLt | rfl
      · rw [roundBuckets_succ hTwo (by omega)] at hRefuses
        have hMore := upperBoundOf_lt hLow hHigh (show 1 ≤ k by omega) (by omega)
        omega
      · omega

/-- A table within its bound does not grow past a size of which less than half may be
filled: there it asks for no more buckets than it has. -/
theorem requested_le (hSound : Sound maxLoadFactor bp h stored) (hWithin : Within h) {n : Nat}
    (hLow : 2 ≤ n) (hn : n ≤ 31) (hSmall : 2 * upperBoundOf maxLoadFactor (2 ^ n) < 2 ^ n)
    (hBuckets : h.nBuckets ≤ 2 ^ n) : roundBuckets (requested h) ≤ 2 ^ n := by
  have hPow : 2 ^ n ≤ 2 ^ 31 := Nat.pow_le_pow_right Nat.two_pos hn
  unfold requested
  rcases hSound.buckets with hZero | ⟨k, hTwo, hk, hEq⟩
  · have hFour : 2 ^ 2 ≤ 2 ^ n := Nat.pow_le_pow_right Nat.two_pos hLow
    have hRound : roundBuckets (khintSucc 0) = 2 ^ 2 := by decide
    simp only [hZero, gt_iff_lt, Nat.not_lt_zero, if_false, hRound]
    exact hFour
  · have hSize := hSound.size_le.trans hWithin.1
    rw [hSound.upperBound_eq] at hSize
    rw [hEq] at hBuckets hSize ⊢
    split_ifs with hFew
    · rw [roundBuckets_pred hTwo hk]
      exact hBuckets
    · rcases Nat.lt_or_ge k n with hLt | hGe
      · rw [roundBuckets_succ hTwo (by omega)]
        exact Nat.pow_le_pow_right Nat.two_pos hLt
      · obtain rfl : k = n := ((Nat.pow_le_pow_iff_right Nat.one_lt_two).mp hBuckets).antisymm hGe
        rw [Nat.shiftLeft_eq] at hFew
        omega

/-- Only an absent key claims an empty bucket. -/
theorem absent_of_claims (hSound : Sound maxLoadFactor bp h stored) (hClaims : ClaimsEmpty bp h key) :
    ∀ e ∈ stored, bp.cmprKeys e.1 key = false := by
  obtain ⟨j, hEmpty, hLive⟩ := hClaims
  refine hSound.absent_of_empty (fun i hi => ?_) hEmpty
  obtain ⟨e, hSlot, hNe⟩ := hLive i hi
  rw [hSlot]
  exact hNe

/-- An insertion fills an empty bucket exactly if its key claims one. -/
theorem empty_iff_claims (hSound : Sound maxLoadFactor bp h stored) {x : Nat} (hx : x < h.nBuckets)
    (hLocated : Located bp h stored key x) : slots h x = .empty ↔ ClaimsEmpty bp h key := by
  cases hLocated with
  | found e hMem hLive hEq =>
      refine iff_of_false (by simp [hLive]) fun hClaims => ?_
      have hAbsent := hSound.absent_of_claims hClaims e hMem
      rw [hEq] at hAbsent
      cases hAbsent
  | free _ _ _ hClaims => exact hClaims
  | full _ hFull =>
      have hNotEmpty {p : Nat} (hp : p < h.nBuckets) : slots h p ≠ .empty := by
        obtain ⟨e, hLive⟩ := hFull p hp
        simp [hLive]
      refine iff_of_false (hNotEmpty hx) ?_
      rintro ⟨j, hEmpty, _⟩
      exact hNotEmpty (hSound.probe_lt (Nat.ne_of_gt (Nat.zero_lt_of_lt hx)) ..) hEmpty

end Sound

/-- The insertion of this key takes an empty bucket, or looks for one where there
is no bucket, although the table is at its bound. More room was refused. -/
def Overfills (maxLoadFactor : ℚ) (bp : Blueprint K V) (h : Table K V) (key : K) : Prop :=
  h.upperBound ≤ h.nOccupied ∧ Refuses maxLoadFactor h (requested h) ∧
    (h.nBuckets = 0 ∨ ClaimsEmpty bp h key)

namespace Sound

variable {maxLoadFactor : ℚ} {bp : Blueprint K V} {h h' : Table K V} {stored : Multiset (K × V)}
  {key : K}

/-- What an insertion makes of a table that keeps to its bound. -/
theorem insert_within_iff (hSound : Sound maxLoadFactor bp h stored) (hHigh : maxLoadFactor ≤ 1)
    (hWithin : Within h) (key : K) :
    (∃ h', ReturnsTo (fun fuel => (Shim.insert maxLoadFactor bp fuel h key).run) (.ok h') ∧
      Within h') ↔ ¬ Overfills maxLoadFactor bp h key := by
  obtain ⟨r, hReturns⟩ := hSound.call_returns hHigh (.insert key)
  obtain ⟨fuel, hRun⟩ := hReturns.exists_fuel
  obtain ⟨h₁, hMade, hSound₁, hCases⟩ := hSound.insert_returned hRun
  have hTop := upperBoundOf_le hHigh h₁.nBuckets
  rw [← hSound₁.upperBound_eq] at hTop
  constructor
  · rintro ⟨h', hOk, hFilled, _⟩ ⟨hFull, hRefuses, hNone⟩
    have hSame : h₁ = h := by
      rcases hMade with ⟨hLt, _⟩ | ⟨_, ⟨_, hSame⟩ | ⟨hNot, _⟩⟩
      · exact absurd hFull (Nat.not_le_of_lt hLt)
      · exact hSame
      · exact absurd hRefuses hNot
    subst hSame
    obtain rfl := hReturns.unique hOk
    rcases hCases with ⟨_, hFault⟩ | ⟨hPos, h'', _, x, hEq, _, hx, hLocated, _, hBound, hCount, _⟩
    · cases hFault
    · cases hEq
      have hEmpty := (hSound.empty_iff_claims hx hLocated).mpr (hNone.resolve_left hPos)
      rw [hEmpty, Slot.filled_empty] at hCount
      omega
  · intro hFits
    have hRoom : h₁.nOccupied < h₁.upperBound ∨ h₁.nOccupied ≤ h₁.upperBound ∧
        h₁.nBuckets ≠ 0 ∧ ¬ ClaimsEmpty bp h₁ key := by
      rcases hMade with ⟨hLt, rfl⟩ | ⟨hFull, ⟨hRefuses, rfl⟩ | ⟨hAccepts, hSize, hCount⟩⟩
      · exact Or.inl hLt
      · have hNone := not_or.mp fun hNone => hFits ⟨hFull, hRefuses, hNone⟩
        exact Or.inr ⟨hWithin.1, hNone⟩
      · rw [hCount, hSound₁.upperBound_eq, hSize]
        exact Or.inl (Nat.lt_of_not_le hAccepts)
    rcases hCases with ⟨hZero, _⟩ | ⟨_, h', _, x, rfl, _, hx, hLocated, hBuckets, hBound, hCount, _⟩
    · omega
    · refine ⟨h', hReturns, ?_, by omega⟩
      have hNotEmpty (hNot : ¬ ClaimsEmpty bp h₁ key) : (slots h₁ x).filled = 1 := by
        have hNe := mt (hSound₁.empty_iff_claims hx hLocated).mp hNot
        have hLe := (slots h₁ x).filled_le_one
        have hZero := mt Slot.filled_eq_zero_iff.mp hNe
        omega
      rcases hRoom with hLt | ⟨hLe, _, hNot⟩
      · omega
      · have hFilled := hNotEmpty hNot
        omega

/-- An erasure keeps a table to its bound. -/
theorem erase_within (hSound : Sound maxLoadFactor bp h stored) (hWithin : Within h) (key : K) :
    ∃ h', ReturnsTo (fun fuel => (Shim.erase bp fuel h key).run) (.ok h') ∧ Within h' := by
  obtain ⟨r, hReturns⟩ := hSound.erase_returns key
  obtain ⟨fuel, hRun⟩ := hReturns.exists_fuel
  obtain ⟨h', _, rfl, _, hBuckets, hBound, hCount, _⟩ := hSound.erase_returned hRun
  refine ⟨h', hReturns, ?_⟩
  rw [Within, hBuckets, hBound, hCount]
  exact hWithin

end Sound

section Runs

variable {maxLoadFactor : ℚ} {memory : Nat → K × V} {bp : Blueprint K V} {ops : List (Op K)}

/-- The run ends without a fault, in a table that keeps to its bound. -/
def RunWithin (maxLoadFactor : ℚ) (memory : Nat → K × V) (bp : Blueprint K V) (ops : List (Op K)) :
    Prop :=
  ∃ h, ReturnsTo (fun fuel => (Shim.run maxLoadFactor memory bp fuel ops).run) (.ok h) ∧ Within h

theorem init_within : Within (init memory) := ⟨le_rfl, le_rfl⟩

theorem RunWithin.sound (h : RunWithin maxLoadFactor memory bp ops) :
    ∃ table stored, ReturnsTo (fun fuel => (Shim.run maxLoadFactor memory bp fuel ops).run)
      (.ok table) ∧ Within table ∧ Sound maxLoadFactor bp table stored := by
  obtain ⟨table, hRun, hWithin⟩ := h
  obtain ⟨fuel, hReturned⟩ := hRun.exists_fuel
  obtain ⟨stored, hSound⟩ := run_sound hReturned
  exact ⟨table, stored, hRun, hWithin, hSound⟩

/-- One more call of a run. -/
theorem RunWithin.concat_iff (hHigh : maxLoadFactor ≤ 1) (h : RunWithin maxLoadFactor memory bp ops)
    (op : Op K) : RunWithin maxLoadFactor memory bp (ops ++ [op]) ↔
      ∀ key table, op = .insert key →
        ReturnsTo (fun fuel => (Shim.run maxLoadFactor memory bp fuel ops).run) (.ok table) →
        ¬ Overfills maxLoadFactor bp table key := by
  obtain ⟨table, stored, hRun, hWithin, hSound⟩ := h.sound
  simp only [RunWithin, run_concat, hRun.andThen_iff]
  have hUnique (P : Table K V → Prop) : (∀ table', ReturnsTo (fun fuel =>
      (Shim.run maxLoadFactor memory bp fuel ops).run) (.ok table') → P table') ↔ P table := by
    refine ⟨fun hAll => hAll table hRun, fun hTable table' hRun' => ?_⟩
    cases hRun.unique hRun'
    exact hTable
  cases op with
  | insert key =>
      refine (hSound.insert_within_iff hHigh hWithin key).trans ?_
      refine (hUnique fun table => ¬ Overfills maxLoadFactor bp table key).symm.trans ?_
      exact ⟨fun hAll key' table' hKey => Op.insert.inj hKey ▸ hAll table', fun hAll table' =>
        hAll key table' rfl⟩
  | erase key =>
      exact iff_of_true (hSound.erase_within hWithin key) fun key' table' hKey => by cases hKey

/-- All calls of a run stay in the arrays and leave the table at or below its
bound, exactly if no insertion fills an empty bucket at the bound. -/
theorem khash_within_iff (hHigh : maxLoadFactor ≤ 1) (memory : Nat → K × V) (bp : Blueprint K V)
    (ops : List (Op K)) :
    (∀ before after, ops = before ++ after → RunWithin maxLoadFactor memory bp before) ↔
      ∀ before key after, ops = before ++ .insert key :: after → ∀ table,
        ReturnsTo (fun fuel => (Shim.run maxLoadFactor memory bp fuel before).run) (.ok table) →
          ¬ Overfills maxLoadFactor bp table key := by
  constructor
  · intro hAll before key after hSplit table hRun
    have hNext := hAll (before ++ [.insert key]) after (by simp [hSplit])
    exact ((hAll before _ hSplit).concat_iff hHigh _).mp hNext key table rfl hRun
  · intro hFits before after hSplit
    induction before using List.reverseRecOn generalizing after with
    | nil => exact ⟨init memory, ReturnsTo.pure _, init_within⟩
    | append_singleton before op ih =>
        rw [List.append_assoc, List.singleton_append] at hSplit
        refine ((ih _ hSplit).concat_iff hHigh op).mpr fun key table hOp hRun => ?_
        exact hFits before key after (hOp ▸ hSplit) table hRun

/-- With a load factor of one tenth the first insertion looks for a bucket where
there is none. -/
theorem khash_within_tenth : (0 : ℚ) < 1 / 10 ∧ (1 / 10 : ℚ) ≤ 1 ∧
    (Blueprint.ofEq id ()).Fewer (2 ^ 31) [.insert (3 : Nat)] ∧
    ¬ RunWithin (1 / 10) (fun _ => (0, ())) (Blueprint.ofEq id ()) [.insert (3 : Nat)] := by
  refine ⟨by norm_num, by norm_num, .of_length (by decide), fun hWithin => ?_⟩
  have hEmpty : RunWithin (1 / 10) (fun _ => (0, ())) (Blueprint.ofEq id ()) ([] : List (Op Nat)) :=
    ⟨init fun _ => (0, ()), ReturnsTo.pure _, init_within⟩
  refine (hEmpty.concat_iff (by norm_num) (.insert 3)).mp hWithin 3 _ rfl (ReturnsTo.pure _)
    ⟨le_rfl, ?_, Or.inl rfl⟩
  have hRound : roundBuckets (khintSucc 0) = 4 := by decide
  have hFloor : ⌊((4 : Nat) : ℚ) * (1 / 10) + 1 / 2⌋₊ = 0 := Nat.floor_eq_zero.mpr (by norm_num)
  change upperBoundOf (1 / 10) (roundBuckets (khintSucc 0)) ≤ 0
  rw [hRound, upperBoundOf, hFloor]
  exact (Nat.zero_mod _).le

/-- The keys of a run at the load factor of the benchmark never exceed its bound. -/
theorem khash_within_iff_collision :
    (7 / 8 : ℚ) ≤ 1 ∧
    ((∀ before after, [Op.insert 3, .insert 7, .erase 3] = before ++ after →
      RunWithin (7 / 8) (fun _ => (0, ())) (Blueprint.ofEq (fun k : Nat => k % 4) ()) before) ↔
      ∀ before key after, [Op.insert 3, .insert 7, .erase 3] = before ++ .insert key :: after →
        ∀ table, ReturnsTo (fun fuel => (Shim.run (7 / 8) (fun _ => (0, ()))
          (Blueprint.ofEq (fun k : Nat => k % 4) ()) fuel before).run) (.ok table) →
            ¬ Overfills (7 / 8) (Blueprint.ofEq (fun k : Nat => k % 4) ()) table key) :=
  ⟨by norm_num, khash_within_iff (by norm_num) _ _ _⟩

end Runs

end HashBench.Khash
