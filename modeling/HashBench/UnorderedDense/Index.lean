import HashBench.Library.RobinHood
import HashBench.UnorderedDense.Table

/-! The buckets as a Robin Hood index of the vector, and the loops that look for
a key in it. -/
namespace HashBench.UnorderedDense

open Search While RobinHood

/-- The distances of a table of no more pairs fit into 24 bits. -/
def pairLimit : Nat := 2 ^ 24 - 5

theorem distInc_of_lt {x : Nat} (h : x + distIncrement < 2 ^ 32) : distInc x = x + distIncrement :=
  Nat.mod_eq_of_lt h

theorem distDec_of_le {x : Nat} (hLow : distIncrement ≤ x) (hHigh : x < 2 ^ 32) :
    distDec x = x - distIncrement := by
  have hSum : x + 2 ^ 32 - distIncrement = x - distIncrement + 2 ^ 32 := by omega
  rw [distDec, hSum, Nat.add_mod_right, Nat.mod_eq_of_lt (by omega)]

theorem distAndFingerprint_bounds (hash : Nat) :
    distIncrement ≤ distAndFingerprintFromHash hash ∧
      distAndFingerprintFromHash hash < 2 * distIncrement := by
  have hMask : hash % 2 ^ 32 &&& fingerprintMask = hash % 2 ^ 32 % 2 ^ 8 :=
    Nat.and_two_pow_sub_one_eq_mod _ 8
  have hLow : hash % 2 ^ 32 % 2 ^ 8 < 2 ^ 8 := Nat.mod_lt _ (by simp)
  have hSum := Nat.two_pow_add_eq_or_of_lt hLow 1
  rw [distAndFingerprintFromHash, hMask, show distIncrement = 2 ^ 8 * 1 by rfl, ← hSum]
  omega

def Bucket.cell (bucket : Bucket) : Cell Nat := ⟨bucket.distAndFingerprint, bucket.valueIdx⟩

theorem cell_update (buckets : Nat → Bucket) (p : Nat) (bucket : Bucket) :
    (fun q => (Function.update buckets p bucket q).cell) =
      Function.update (fun q => (buckets q).cell) p bucket.cell := by
  funext q
  by_cases hq : q = p
  · simp [hq]
  · simp [hq]

variable {K V : Type} {bp : Blueprint K V}

theorem mixedHash_congr {key key' : K} (h : bp.cmprKeys key key' = true) :
    mixedHash bp key = mixedHash bp key' := by
  rw [mixedHash, mixedHash, bp.hashKey_congr h]

/-- The hash code of the key at an index into a vector. -/
def hashAt (bp : Blueprint K V) (values : List (K × V)) (valueIdx : Nat) : Nat :=
  values[valueIdx]?.elim 0 fun pair => mixedHash bp pair.1

/-- The number of buckets is the one of `m_shifts`. -/
structure Shaped (table : Table K V) : Prop where
  pos : 0 < table.shifts
  lt : table.shifts < 64
  numBuckets_eq : table.numBuckets = calcNumBuckets table.shifts

/-- The buckets are in Robin Hood order for the keys of the vector. -/
abbrev InOrder (bp : Blueprint K V) (table : Table K V) (buckets : Nat → Bucket) : Prop :=
  Ordered table.numBuckets distIncrement
    (fun v => table.bucketIdxFromHash (hashAt bp table.values v))
    (fun v => distAndFingerprintFromHash (hashAt bp table.values v)) fun p => (buckets p).cell

/-- The indices that buckets of a table refer to. -/
abbrev indices (table : Table K V) (buckets : Nat → Bucket) : Multiset Nat :=
  items (fun p => (buckets p).cell) table.numBuckets

/-- The buckets refer to the first `count` pairs of the vector. -/
structure Indexed (bp : Blueprint K V) (table : Table K V) (count : Nat) : Prop
    extends Shaped table where
  ordered : InOrder bp table table.buckets
  items_eq : indices table table.buckets = Multiset.range count
  count_le : count ≤ table.values.length
  room : count < table.numBuckets
  few : count ≤ pairLimit

variable {table : Table K V} {count : Nat} {key : K}

theorem baseRanks (hash : Nat → Nat) :
    BaseRanks distIncrement fun v => distAndFingerprintFromHash (hash v) :=
  fun v => distAndFingerprint_bounds (hash v)

theorem distIncrement_pos : 0 < distIncrement := by simp [distIncrement]

/-- The ranks of so many buckets in order are bounded. -/
theorem rank_lt_of_card {buckets : Nat → Bucket} (h : InOrder bp table buckets)
    (hCard : (indices table buckets).card = count) {q : Nat} (hq : q < table.numBuckets)
    (hEmpty : (buckets q).distAndFingerprint = 0) {p : Nat} (hp : p < table.numBuckets) :
    (buckets p).distAndFingerprint < (count + 1) * distIncrement := by
  have hRank := h.rank_lt (baseRanks _) distIncrement_pos hq hEmpty hp
  rwa [show (items _ _).card = count from hCard] at hRank

namespace Shaped

variable (h : Shaped table)
include h

theorem numBuckets_pos : 0 < table.numBuckets := by
  rw [h.numBuckets_eq, calcNumBuckets, Nat.one_shiftLeft]
  exact lt_min (by simp [maxSize]) (Nat.two_pow_pos _)

theorem numBuckets_le : table.numBuckets ≤ 2 ^ 32 := by
  rw [h.numBuckets_eq]
  exact min_le_left _ _

theorem home_lt {hash : Nat} (hHash : hash < 2 ^ 64) :
    table.bucketIdxFromHash hash < table.numBuckets := by
  rw [h.numBuckets_eq, Table.bucketIdxFromHash, calcNumBuckets, lt_min_iff, Nat.one_shiftLeft]
  refine ⟨Nat.mod_lt _ (by simp), (Nat.mod_le _ _).trans_lt ?_⟩
  rw [Nat.shiftRight_eq_div_pow, Nat.div_lt_iff_lt_mul (Nat.two_pow_pos _), ← Nat.pow_add,
    Nat.sub_add_cancel h.lt.le]
  exact hHash

theorem next_eq {p : Nat} (hp : p < table.numBuckets) :
    table.next p = (p + 1) % table.numBuckets := by
  have hLe := h.numBuckets_le
  rw [Table.next]
  rcases Nat.lt_or_eq_of_le (Nat.succ_le_of_lt hp) with hLess | hEnd
  · rw [Nat.mod_eq_of_lt (by omega), if_neg hLess.ne, Nat.mod_eq_of_lt hLess]
  · rw [← hEnd, Nat.mod_self]
    split_ifs with hSame
    · rfl
    · rcases Nat.lt_or_eq_of_le (hEnd ▸ hLe : p.succ ≤ 2 ^ 32) with hLess | hFull
      · exact absurd (Nat.mod_eq_of_lt hLess) hSame
      · simp only [Nat.succ_eq_add_one] at hFull
        rw [hFull, Nat.mod_self]

theorem cursor_lt (bp : Blueprint K V) (key : K) :
    (table.cursor bp key).bucketIdx < table.numBuckets :=
  h.home_lt (Nat.mod_lt _ (by simp))

end Shaped

theorem hashAt_eq {values : List (K × V)} {v : Nat} {pair : K × V} (h : values[v]? = some pair) :
    hashAt bp values v = mixedHash bp pair.1 := by
  simp [hashAt, h]

/-- The loops for a key have come past `j` buckets, none of which is the one of
the key, and none from `skip` on of a lower rank. -/
structure Missed (bp : Blueprint K V) (table : Table K V) (key : K) (skip j : Nat)
    (cursor : Cursor) : Prop where
  dist : cursor.distAndFingerprint = (table.cursor bp key).distAndFingerprint + j * distIncrement
  idx : cursor.bucketIdx = ((table.cursor bp key).bucketIdx + j) % table.numBuckets
  miss : ∀ i < j, table.hit bp key
    ⟨(table.cursor bp key).distAndFingerprint + i * distIncrement,
      ((table.cursor bp key).bucketIdx + i) % table.numBuckets⟩ = false
  path : ∀ i, skip ≤ i → i < j →
    (table.cursor bp key).distAndFingerprint + i * distIncrement ≤
      (table.buckets (((table.cursor bp key).bucketIdx + i) % table.numBuckets)).distAndFingerprint

theorem hit_iff {cursor : Cursor} : table.hit bp key cursor = true ↔
    cursor.distAndFingerprint = (table.buckets cursor.bucketIdx).distAndFingerprint ∧
      ∃ pair, table.values[(table.buckets cursor.bucketIdx).valueIdx]? = some pair ∧
        bp.cmprKeys key pair.1 = true := by
  simp [Table.hit, Table.equal, Option.any_eq_true]

/-- Going on past a bucket means that it has no lower rank and is not the key's. -/
theorem probing_iff {cursor : Cursor} : table.probing bp key cursor = true ↔
    table.hit bp key cursor = false ∧
      cursor.distAndFingerprint ≤ (table.buckets cursor.bucketIdx).distAndFingerprint := by
  by_cases hDist :
      cursor.distAndFingerprint = (table.buckets cursor.bucketIdx).distAndFingerprint
  · simp [Table.probing, Table.hit, hDist]
  · simp [Table.probing, Table.hit, hDist]

namespace Missed

variable {skip j : Nat} {cursor : Cursor}

theorem first (hShaped : Shaped table) (bp : Blueprint K V) (key : K) (skip : Nat) :
    Missed bp table key skip 0 (table.cursor bp key) where
  dist := by simp
  idx := by simp [Nat.mod_eq_of_lt (hShaped.cursor_lt bp key)]
  miss i hi := absurd hi (Nat.not_lt_zero i)
  path i _ hi := absurd hi (Nat.not_lt_zero i)

theorem inside (h : Missed bp table key skip j cursor) (hShaped : Shaped table) :
    cursor.bucketIdx < table.numBuckets := by
  rw [h.idx]
  exact Nat.mod_lt _ hShaped.numBuckets_pos

theorem pos (h : Missed bp table key skip j cursor) : 0 < cursor.distAndFingerprint := by
  have hLow := (distAndFingerprint_bounds (mixedHash bp key)).1
  have hPos := distIncrement_pos
  have hDist := h.dist
  simp only [Table.cursor] at hDist
  omega

theorem sought (h : Missed bp table key 0 j cursor) :
    Sought table.numBuckets distIncrement (fun p => (table.buckets p).cell)
      (table.cursor bp key).bucketIdx (table.cursor bp key).distAndFingerprint
      cursor.bucketIdx cursor.distAndFingerprint :=
  ⟨j, h.dist, h.idx.symm, fun i hi => h.path i (Nat.zero_le i) hi⟩

end Missed

/-- The invariant of the loops for a key, `d` buckets before an empty one. -/
structure Passing (bp : Blueprint K V) (table : Table K V) (key : K) (skip q : Nat)
    (keep : Cursor → Prop) (d : Nat) (cursor : Cursor) : Prop where
  keep : keep cursor
  missed : ∃ j, skip ≤ j ∧ Missed bp table key skip j cursor
  ahead : (cursor.bucketIdx + d) % table.numBuckets = q

namespace Indexed

variable {skip j : Nat} {cursor : Cursor} (h : Indexed bp table count)
include h

theorem exists_empty : ∃ q < table.numBuckets, (table.buckets q).distAndFingerprint = 0 := by
  have hCard : (indices table table.buckets).card < table.numBuckets := by
    rw [h.items_eq, Multiset.card_range]
    exact h.room
  exact RobinHood.exists_empty hCard

theorem rank_lt {p : Nat} (hp : p < table.numBuckets) :
    (table.buckets p).distAndFingerprint < (count + 1) * distIncrement := by
  obtain ⟨q, hq, hEmpty⟩ := h.exists_empty
  exact rank_lt_of_card h.ordered (by rw [h.items_eq, Multiset.card_range]) hq hEmpty hp

/-- The distances of a loop do not wrap. -/
theorem dist_lt (hMissed : Missed bp table key skip j cursor) (hSkip : skip ≤ 2) :
    cursor.distAndFingerprint + distIncrement < 2 ^ 32 := by
  have hFew := h.few
  have hHigh := (distAndFingerprint_bounds (mixedHash bp key)).2
  have hDist := hMissed.dist
  simp only [Table.cursor, pairLimit, distIncrement, Nat.one_shiftLeft] at hFew hHigh hDist ⊢
  by_cases hShort : j ≤ 2
  · omega
  · obtain ⟨i, rfl⟩ := Nat.exists_eq_add_one.mpr (by omega : 0 < j)
    have hPath := hMissed.path i (by omega) (Nat.lt_succ_self i)
    have hRank := h.rank_lt (Nat.mod_lt ((table.cursor bp key).bucketIdx + i) h.numBuckets_pos)
    simp only [Table.cursor, distIncrement, Nat.one_shiftLeft] at hPath hRank
    omega

/-- A loop goes on past a bucket that is not the key's. -/
theorem advance (hMissed : Missed bp table key skip j cursor) (hSkip : skip ≤ 2)
    (hMiss : table.hit bp key cursor = false)
    (hPath : j < skip ∨
      cursor.distAndFingerprint ≤ (table.buckets cursor.bucketIdx).distAndFingerprint) :
    Missed bp table key skip (j + 1) (table.advance cursor) := by
  have hDist := distInc_of_lt (h.dist_lt hMissed hSkip)
  have hNext := h.next_eq (hMissed.inside h.toShaped)
  have hCursor : cursor = ⟨(table.cursor bp key).distAndFingerprint + j * distIncrement,
      ((table.cursor bp key).bucketIdx + j) % table.numBuckets⟩ := by
    rw [← hMissed.dist, ← hMissed.idx]
  refine ⟨?_, ?_, ?_, ?_⟩
  · rw [Table.advance, hDist, hMissed.dist, Nat.add_mul, Nat.one_mul, Nat.add_assoc]
  · rw [Table.advance, hNext, hMissed.idx, Nat.mod_add_mod, Nat.add_assoc]
  · intro i hi
    rcases Nat.lt_succ_iff_lt_or_eq.mp hi with hLess | rfl
    · exact hMissed.miss i hLess
    · rw [← hCursor]
      exact hMiss
  · intro i hSkipped hi
    rcases Nat.lt_succ_iff_lt_or_eq.mp hi with hLess | rfl
    · exact hMissed.path i hSkipped hLess
    · have hLast := hPath.resolve_left (Nat.not_lt.mpr hSkipped)
      rw [hMissed.dist, hMissed.idx] at hLast
      exact hLast

/-- A loop that goes on past buckets of no lower ranks ends. -/
theorem loop_returns (cond : Cursor → Bool) (keep : Cursor → Prop)
    (hMissed : Missed bp table key skip j cursor) (hSkip : skip ≤ j) (hHigh : skip ≤ 2)
    (hFirst : keep cursor)
    (hStep : ∀ c, c.bucketIdx < table.numBuckets → cond c = true → keep c →
      table.hit bp key c = false ∧
      c.distAndFingerprint ≤ (table.buckets c.bucketIdx).distAndFingerprint ∧
      (c.distAndFingerprint + distIncrement < 2 ^ 32 → keep (table.advance c))) :
    ∃ last j', ReturnsTo (fun fuel => loop cond table.advance fuel cursor) last ∧
      Missed bp table key skip j' last ∧ cond last = false ∧ keep last := by
  obtain ⟨q, hq, hEmpty⟩ := h.exists_empty
  obtain ⟨d, _, hAhead⟩ := exists_ahead hq cursor.bucketIdx
  have hInv : Passing bp table key skip q keep d cursor := ⟨hFirst, ⟨j, hSkip, hMissed⟩, hAhead⟩
  have hRound : ∀ d c, Passing bp table key skip q keep d c → cond c = true →
      ∃ d' < d, Passing bp table key skip q keep d' (table.advance c) := by
    rintro d c ⟨hKeep, ⟨j, hSkip, hMissed⟩, hAhead⟩ hGoes
    have hInside := hMissed.inside h.toShaped
    obtain ⟨hMiss, hRank, hNext⟩ := hStep c hInside hGoes hKeep
    cases d with
    | zero =>
        rw [Nat.add_zero, Nat.mod_eq_of_lt hInside] at hAhead
        rw [hAhead, hEmpty] at hRank
        exact absurd hMissed.pos (Nat.not_lt.mpr hRank)
    | succ d =>
        refine ⟨d, Nat.lt_succ_self d, hNext (h.dist_lt hMissed hHigh), ⟨j + 1,
          Nat.le_succ_of_le hSkip, h.advance hMissed hHigh hMiss (Or.inr hRank)⟩, ?_⟩
        rw [Table.advance, h.next_eq hInside, Nat.mod_add_mod, Nat.add_assoc, Nat.add_comm 1]
        exact hAhead
  obtain ⟨_, last, hReturns, ⟨hKeep, ⟨j', _, hLast⟩, _⟩, hEnd⟩ := While.returns _ hInv hRound
  exact ⟨last, j', hReturns, hLast, hEnd, hKeep⟩

/-- A bucket that is the key's refers to one of the indexed pairs. -/
theorem hit_spec (hMissed : Missed bp table key skip j cursor)
    (hHit : table.hit bp key cursor = true) :
    ∃ pair, table.values[(table.buckets cursor.bucketIdx).valueIdx]? = some pair ∧
      bp.cmprKeys key pair.1 = true ∧ (table.buckets cursor.bucketIdx).valueIdx < count := by
  obtain ⟨hDist, pair, hPair, hKey⟩ := hit_iff.mp hHit
  refine ⟨pair, hPair, hKey, ?_⟩
  rw [← Multiset.mem_range, ← h.items_eq, mem_items]
  refine ⟨_, hMissed.inside h.toShaped, ?_, rfl⟩
  simp only [Bucket.cell, ← hDist]
  exact hMissed.pos.ne'

/-- A loop that has come to a bucket of a lower rank passed all that may be the key's. -/
theorem absent (hMissed : Missed bp table key skip j cursor)
    (hRank : (table.buckets cursor.bucketIdx).distAndFingerprint < cursor.distAndFingerprint)
    {v : Nat} (hv : v < count) {pair : K × V} (hPair : table.values[v]? = some pair) :
    bp.cmprKeys key pair.1 = false := by
  rw [← Bool.not_eq_true]
  intro hKey
  obtain ⟨p, hp, hTaken, rfl⟩ := mem_items.mp (h.items_eq ▸ Multiset.mem_range.mpr hv)
  simp only [Bucket.cell] at hPair hTaken
  have hHash : hashAt bp table.values (table.buckets p).valueIdx = mixedHash bp key := by
    rw [hashAt_eq hPair, mixedHash_congr (bp.cmprKeys_symm hKey)]
  have hNotYet := h.ordered.not_yet (baseRanks _) distIncrement_pos hp hTaken (j := j) (by
    intro i hi hAt hSame
    simp only [Bucket.cell, hHash] at hAt hSame
    have hMiss := hMissed.miss i hi
    simp only [Table.cursor] at hMiss
    rw [hAt, hSame, ← Bool.not_eq_true, hit_iff] at hMiss
    exact hMiss ⟨rfl, pair, hPair, hKey⟩)
  simp only [Bucket.cell, hHash] at hNotYet
  have hDist := hMissed.dist
  have hIdx := hMissed.idx
  simp only [Table.cursor] at hDist hIdx
  rw [hDist, hIdx] at hRank
  exact absurd hRank (Nat.not_lt.mpr hNotYet)

/-- The loop of `do_try_emplace` and `do_find` ends at the key's bucket, or at a
bucket of a lower rank if there is none. -/
theorem probe_returns (hMissed : Missed bp table key skip j cursor) (hSkip : skip ≤ j)
    (hHigh : skip ≤ 2) :
    ∃ last j', ReturnsTo (fun fuel => table.probe bp fuel key cursor) last ∧
      Missed bp table key skip j' last ∧ (table.hit bp key last = true ∨
        table.hit bp key last = false ∧
        (table.buckets last.bucketIdx).distAndFingerprint < last.distAndFingerprint) := by
  obtain ⟨last, j', hReturns, hLast, hEnd, _⟩ := h.loop_returns (table.probing bp key)
    (fun _ => True) hMissed hSkip hHigh trivial fun c _ hGoes _ =>
      ⟨(probing_iff.mp hGoes).1, (probing_iff.mp hGoes).2, fun _ => trivial⟩
  refine ⟨last, j', hReturns, hLast, ?_⟩
  cases hHit : table.hit bp key last with
  | true => exact Or.inl rfl
  | false =>
      refine Or.inr ⟨rfl, ?_⟩
      rw [← Bool.not_eq_true, probing_iff, not_and, not_le] at hEnd
      exact hEnd hHit

/-- `next_while_less` ends at the first bucket of no higher rank. -/
theorem nextWhileLess_returns (key : K) :
    ∃ last j, ReturnsTo (fun fuel => table.nextWhileLess bp fuel key) last ∧
      Missed bp table key 0 j last ∧
      (table.buckets last.bucketIdx).distAndFingerprint ≤ last.distAndFingerprint := by
  obtain ⟨last, j, hReturns, hLast, hEnd, _⟩ := h.loop_returns
    (fun c => decide (c.distAndFingerprint < (table.buckets c.bucketIdx).distAndFingerprint))
    (fun _ => True) (Missed.first h.toShaped bp key 0) (Nat.le_refl 0) (Nat.zero_le 2) trivial (by
      intro c _ hLess _
      rw [decide_eq_true_iff] at hLess
      refine ⟨?_, hLess.le, fun _ => trivial⟩
      rw [← Bool.not_eq_true, hit_iff]
      exact fun hHit => hLess.ne hHit.1)
  exact ⟨last, j, hReturns, hLast, by simpa using hEnd⟩

/-- The loop of `do_erase_key` looks at the buckets of one rank only, and yet
comes to the key's bucket or past all that may be. -/
theorem eraseCursor_returns (key : K) :
    ∃ last j, ReturnsTo (fun fuel => table.eraseCursor bp fuel key) last ∧
      Missed bp table key 0 j last ∧ (table.hit bp key last = true ∨
        (table.buckets last.bucketIdx).distAndFingerprint < last.distAndFingerprint) := by
  obtain ⟨first, j, hFirst, hMissed, hRank⟩ := h.nextWhileLess_returns key
  obtain ⟨last, j', hReturns, hLast, hEnd, _, hHigh⟩ := h.loop_returns
    (fun c => c.distAndFingerprint == (table.buckets c.bucketIdx).distAndFingerprint &&
      !table.equal bp key c.bucketIdx)
    (fun c => 0 < c.distAndFingerprint ∧
      (table.buckets c.bucketIdx).distAndFingerprint ≤ c.distAndFingerprint)
    hMissed (Nat.zero_le j) (Nat.zero_le 2) ⟨hMissed.pos, hRank⟩ (by
      rintro c hInside hGoes ⟨hPos, _⟩
      simp only [Bool.and_eq_true, beq_iff_eq, Bool.not_eq_true'] at hGoes
      refine ⟨by simp [Table.hit, hGoes.2], hGoes.1.le, fun hSmall => ?_⟩
      -- The next bucket's rank exceeds this one's by no more than the increment.
      have hNext := h.ordered.ordered c.bucketIdx hInside
      simp only [Bucket.cell] at hNext
      rw [lift_of_ne (by omega), ← hGoes.1] at hNext
      simp only [Table.advance, h.next_eq hInside, distInc_of_lt hSmall]
      exact ⟨by omega, hNext⟩)
  refine ⟨last, j', hFirst.bind hReturns, hLast, ?_⟩
  simp only [Bool.and_eq_false_iff, beq_eq_false_iff_ne, Bool.not_eq_false'] at hEnd
  rcases hEnd with hLess | hKey
  · exact Or.inr (lt_of_le_of_ne hHigh (Ne.symm hLess))
  · by_cases hSame : last.distAndFingerprint =
        (table.buckets last.bucketIdx).distAndFingerprint
    · exact Or.inl (by simp [Table.hit, hSame, hKey])
    · exact Or.inr (lt_of_le_of_ne hHigh (Ne.symm hSame))

end Indexed

end HashBench.UnorderedDense
