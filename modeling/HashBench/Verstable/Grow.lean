import HashBench.Verstable.Erase
import HashBench.Verstable.Sizes

/-! Insertions that make the table grow. A new table takes over the pairs of the
old one, and is given up for one of twice the size if it refuses one of them.
The growth ends at the latest where no larger array can be allocated. -/
namespace HashBench.Verstable

open Search Chains OpenAddressing

variable {K V : Type} {bp : Blueprint K V} {memory : Nat → K × V} {maxLoad : ℚ}
  {bucketSize : Nat} {allocator : Allocator} {table : Table K V} {key : K} {val : V}
  {stored : Multiset (K × V)}

section Steady

theorem steady_findPrevious (table : Table K V) (home bucket : Nat) :
    Steady fun fuel => findPrevious fuel table home bucket :=
  (steady_search _ _ _ _).map _

theorem steady_findInsertLocation (table : Table K V) (home displacement : Nat) :
    Steady fun fuel => findInsertLocationInChain fuel table home displacement :=
  (steady_search _ _ _ _).map _

theorem steady_searchChain (bp : Blueprint K V) (table : Table K V) (home : Nat) (key : K) :
    Steady fun fuel => searchChain bp fuel table home key :=
  (steady_search _ _ _ _).map _

theorem steady_reconnect (table : Table K V) (home bucket : Nat) :
    Steady fun fuel => reconnect fuel table home bucket := by
  unfold reconnect
  cases findFirstEmpty table home with
  | none => exact Steady.pure _
  | some found => exact (steady_findInsertLocation table home found.2).bind fun _ => Steady.pure _

theorem steady_vacate (bp : Blueprint K V) (table : Table K V) (home : Nat) :
    Steady fun fuel => vacate bp fuel table home := by
  unfold vacate evict disconnect
  refine Steady.ite (Steady.bind ?_ fun linked => steady_reconnect linked _ home) (Steady.pure _)
  exact (steady_findPrevious table _ home).bind fun _ => Steady.pure _

theorem steady_insertAtHome (maxLoad : ℚ) (bp : Blueprint K V) (table : Table K V) (key : K)
    (val : V) : Steady fun fuel => insertAtHome maxLoad bp fuel table key val := by
  unfold insertAtHome
  refine Steady.ite (Steady.pure _) ((steady_vacate bp table _).bind fun vacated => ?_)
  exact Steady.ite (Steady.pure _) (Steady.pure _)

theorem steady_insertInChain (maxLoad : ℚ) (bp : Blueprint K V) (table : Table K V) (key : K)
    (val : V) : Steady fun fuel => insertInChain maxLoad bp fuel table key val := by
  unfold insertInChain
  refine Steady.ite (Steady.pure _) ?_
  cases findFirstEmpty table (table.homeBucket bp key) with
  | none => exact Steady.pure _
  | some found => exact (steady_findInsertLocation table _ found.2).bind fun _ => Steady.pure _

theorem steady_insertRaw (maxLoad : ℚ) (bp : Blueprint K V) (table : Table K V) (key : K)
    (val : V) (unique replace : Bool) :
    Steady fun fuel => insertRaw maxLoad bp fuel table key val unique replace := by
  unfold insertRaw
  apply Steady.ite (steady_insertAtHome maxLoad bp table key val)
  apply Steady.ite
  on_goal 1 => apply (Steady.pure (some none)).bind
  on_goal 2 => apply (steady_searchChain bp table _ key).bind
  all_goals
    rintro (_ | bucket)
    · exact steady_insertInChain maxLoad bp table key val
    · exact Steady.pure _

theorem steady_get (bp : Blueprint K V) (table : Table K V) (key : K) :
    Steady fun fuel => get bp fuel table key := by
  unfold get
  refine Steady.ite (Steady.pure _) ((steady_searchChain bp table _ key).bind fun found => ?_)
  cases found with
  | none => exact Steady.pure _
  | some bucket => exact Steady.pure _

theorem steady_eraseItrRaw (bp : Blueprint K V) (table : Table K V) (itr : Itr) :
    Steady fun fuel => eraseItrRaw bp fuel table itr := by
  unfold eraseItrRaw eraseLast eraseInner
  refine Steady.ite (Steady.pure _) (Steady.ite ?_ ?_)
  · refine Steady.bind ?_ fun _ => Steady.pure _
    exact (steady_findPrevious _ _ _).bind fun _ => Steady.pure _
  · refine Steady.bind ?_ fun _ => Steady.pure _
    exact (steady_search _ _ _ _).bind fun _ => Steady.pure _

theorem steady_erase (bp : Blueprint K V) (table : Table K V) (key : K) :
    Steady fun fuel => erase bp fuel table key := by
  unfold erase
  refine (steady_get bp table key).bind fun itr => Steady.ite (Steady.pure _) ?_
  exact (steady_eraseItrRaw bp table itr).bind fun _ => Steady.pure _

end Steady

/-- One attempt to insert a key that returned. -/
theorem Sound.insertRaw_returned (h : Sound bp table stored) {unique replace : Bool}
    (hUnique : unique = true → bp.cls key ∉ bp.keyClasses stored) {fuel : Nat} {table' : Table K V}
    {itr : Itr} (hEq : insertRaw maxLoad bp fuel table key val unique replace = some (table', itr)) :
    (bp.cls key ∉ bp.keyClasses stored ∧ (Added maxLoad bp table stored key val table' itr ∨
        Refused maxLoad bp table stored table' itr)) ∨
      Met bp table stored key val replace table' itr := by
  obtain ⟨_, _, hReturns, hCases⟩ := h.insertRaw_returns maxLoad key val unique replace hUnique
  have hSame := (steady_insertRaw maxLoad bp table key val unique replace).eq_of_returnsTo
    hReturns hEq
  rw [Prod.mk.injEq] at hSame
  obtain ⟨rfl, rfl⟩ := hSame
  exact hCases

/-- A table without keys. -/
theorem Sound.of_vacant (hMask : ∃ k, table.bucketsMask + 1 = 2 ^ k)
    (hVacant : ∀ p ≤ table.bucketsMask, table.metadata p = vtEmpty) (hCount : table.keyCount = 0)
    (hStopper : table.bucketsMask ≠ 0 → table.metadata (table.bucketsMask + 1) ≠ vtEmpty) :
    Sound bp table 0 := by
  have hOccupied : table.occupied = ∅ := by
    ext p
    exact ⟨fun hp => hp.2 (hVacant p hp.1), fun hp => hp.elim⟩
  refine ⟨⟨hMask, total_eq_zero _ fun p hp => ?_, hCount, Multiset.nodup_zero,
    fun _ => hVacant 0 (Nat.zero_le _), hStopper⟩, fun _ => 0, hMask, ?_, ?_, ?_⟩
  · rw [slots_eq_empty_iff.mpr (hVacant p (Nat.le_of_lt_succ hp))]
    rfl
  · exact hOccupied ▸ Chained.empty ..
  · exact fun p hp => absurd hp (hOccupied ▸ Set.notMem_empty p)
  · exact fun p hp => absurd hp (hOccupied ▸ Set.notMem_empty p)

theorem sound_init (bp : Blueprint K V) (memory : Nat → K × V) : Sound bp (init memory) 0 :=
  Sound.of_vacant ⟨0, rfl⟩ (fun _ _ => rfl) rfl fun hNe => absurd rfl hNe

theorem sound_newTable (bp : Blueprint K V) (memory : Nat → K × V) {bucketCount k : Nat}
    (hCount : bucketCount = 2 ^ k) : Sound bp (newTable memory bucketCount) 0 := by
  have hPos : 0 < bucketCount := hCount ▸ Nat.two_pow_pos k
  have hMask : bucketCount - 1 + 1 = bucketCount := Nat.sub_add_cancel hPos
  refine Sound.of_vacant ⟨k, hMask.trans hCount⟩ (fun p hp => ?_) rfl fun _ => ?_
  · have hp : p ≤ bucketCount - 1 := hp
    have hNe : p ≠ bucketCount := by omega
    exact Function.update_of_ne hNe _ (fun _ => vtEmpty)
  · change Function.update (fun _ => vtEmpty) bucketCount 0x01#16 (bucketCount - 1 + 1) ≠ vtEmpty
    rw [hMask, Function.update_self]
    decide

/-- The buckets that a rehash reads hold all pairs. -/
theorem Kept.contents_bucketCount (h : Kept bp table stored) :
    contents (slots table) table.bucketCount = stored := by
  by_cases hMask : table.bucketsMask = 0
  · have hZero : table.bucketCount = 0 := by rw [Table.bucketCount, hMask]; rfl
    have hEmpty : slots table 0 = .empty := slots_eq_empty_iff.mpr (h.vacant hMask)
    rw [hZero, ← h.contents_eq, hMask, contents, contents, total_succ, hEmpty,
      Slot.entries_empty, add_zero]
  · rw [Table.bucketCount_eq hMask, h.contents_eq]

/-- A table with keys has buckets. -/
theorem Kept.mask_ne_zero_of_count (h : Kept bp table stored) (hCount : table.keyCount ≠ 0) :
    table.bucketsMask ≠ 0 := by
  intro hZero
  have hNone := h.contents_bucketCount
  rw [Table.bucketCount, if_neg (not_not_intro hZero), hZero] at hNone
  exact hCount (h.keyCount_eq.trans (Multiset.card_eq_zero.mpr hNone.symm))

/-- A table with keys is within the maximum load. -/
def Within (maxLoad : ℚ) (table : Table K V) : Prop :=
  table.keyCount ≠ 0 → (table.keyCount : ℚ) ≤ table.bucketCount * maxLoad

theorem Within.of_le {table' : Table K V} (h : Within maxLoad table)
    (hMask : table'.bucketsMask = table.bucketsMask) (hCount : table'.keyCount ≤ table.keyCount) :
    Within maxLoad table' := by
  intro hNonzero
  have hCount' : (table'.keyCount : ℚ) ≤ table.keyCount := by exact_mod_cast hCount
  rw [Table.bucketCount, hMask]
  exact hCount'.trans (h (by omega))

theorem Added.within {table' : Table K V} {itr : Itr}
    (h : Added maxLoad bp table stored key val table' itr) (hCount : table.keyCount = stored.card) :
    Within maxLoad table' := by
  intro _
  have hRoom := not_lt.mp h.room
  rw [h.sound.keyCount_eq, Multiset.card_cons, ← hCount, Table.bucketCount, h.mask]
  exact hRoom

/-- With this many buckets some table of fewer than `count` keys refuses a key. -/
def Stuck (maxLoad : ℚ) (bp : Blueprint K V) (bucketsMask count : Nat) : Prop :=
  ∃ (table : Table K V) (stored : Multiset (K × V)), Sound bp table stored ∧
    table.bucketsMask = bucketsMask ∧ stored.card < count ∧
    (table.Overloaded maxLoad ∨ Crowded table)

/-- The loop over the old buckets moves all pairs, or the new table refuses one. -/
theorem reinsertFrom_returns (maxLoad : ℚ) {n : Nat}
    (hNodup : (bp.keyClasses (contents (slots table) n)).Nodup) {left bucket : Nat}
    (hLeft : bucket + left = n) {new : Table K V}
    (hNew : Sound bp new (contents (slots table) bucket)) (hWithin : Within maxLoad new) :
    ∃ new', ReturnsTo (fun fuel => reinsertFrom maxLoad bp fuel table left bucket new) new' ∧
      new'.bucketsMask = new.bucketsMask ∧
      (Sound bp new' (contents (slots table) n) ∧ Within maxLoad new' ∨
        new'.keyCount < (contents (slots table) n).card ∧
          Stuck maxLoad bp new.bucketsMask (contents (slots table) n).card) := by
  induction left generalizing bucket new with
  | zero =>
      obtain rfl : bucket = n := hLeft
      exact ⟨new, ReturnsTo.pure _, rfl, Or.inl ⟨hNew, hWithin⟩⟩
  | succ left ih =>
      simp only [reinsertFrom]
      by_cases hEmpty : table.metadata bucket = vtEmpty
      · have hNext : contents (slots table) (bucket + 1) = contents (slots table) bucket := by
          rw [contents, total_succ, slots_eq_empty_iff.mpr hEmpty, Slot.entries_empty, add_zero]
          rfl
        simp only [if_neg (not_not_intro hEmpty)]
        exact ih (by omega) (hNext ▸ hNew) hWithin
      · have hNext : contents (slots table) (bucket + 1) =
            table.buckets bucket ::ₘ contents (slots table) bucket := by
          rw [contents, total_succ, slots_of_ne hEmpty, Slot.entries_live, add_comm,
            Multiset.singleton_add]
          rfl
        have hLe := contents_le (slots table) (show bucket + 1 ≤ n by omega)
        have hNodup' := Multiset.nodup_of_le (Multiset.map_le_map hLe) hNodup
        rw [hNext, Multiset.map_cons] at hNodup'
        have hAbsent := (Multiset.nodup_cons.mp hNodup').1
        have hCard := Multiset.card_le_card hLe
        rw [hNext, Multiset.card_cons] at hCard
        simp only [if_pos hEmpty]
        obtain ⟨new₁, itr, hInsert, ⟨_, hAdded | hRefused⟩ | hMet⟩ :=
          hNew.insertRaw_returns maxLoad (table.buckets bucket).1 (table.buckets bucket).2 true
            false fun _ => hAbsent
        · obtain ⟨q, hAt, _⟩ := hAdded.pointsAt
          obtain ⟨new', hReturns, hMask, hCases⟩ :=
            ih (by omega) (hNext ▸ hAdded.sound) (hAdded.within hNew.keyCount_eq)
          rw [hAdded.mask] at hMask hCases
          refine ⟨new', hInsert.bind ?_, hMask, hCases⟩
          simp only [hAt.not_end, Bool.false_eq_true, if_false]
          exact hReturns
        · refine ⟨new₁, hInsert.bind ?_, hRefused.mask, Or.inr ⟨?_, new, _, hNew, rfl, hCard,
            hRefused.cause⟩⟩
          · simp only [hRefused.isEnd, if_true]
            exact ReturnsTo.pure _
          · rw [hRefused.kept.keyCount_eq]
            exact hCard
        · obtain ⟨pair, rest, hStored, hKey, _⟩ := hMet.sound
          refine absurd (Blueprint.mem_keyClasses.mpr ⟨pair, ?_, hKey⟩) hAbsent
          exact hStored ▸ Multiset.mem_cons_self ..

theorem steady_reinsertFrom (maxLoad : ℚ) (bp : Blueprint K V) (table : Table K V)
    (left bucket : Nat) (new : Table K V) :
    Steady fun fuel => reinsertFrom maxLoad bp fuel table left bucket new := by
  induction left generalizing bucket new with
  | zero => exact Steady.pure _
  | succ left ih =>
      simp only [reinsertFrom]
      refine Steady.ite ?_ (ih (bucket + 1) new)
      exact (steady_insertRaw maxLoad bp new _ _ true false).bind fun inserted =>
        Steady.ite (Steady.pure _) (ih (bucket + 1) inserted.1)

/-- The array of the table was allocated, and its keys are within the maximum load. -/
structure Sized (maxLoad : ℚ) (bucketSize : Nat) (table : Table K V) : Prop where
  allocated : table.bucketsMask ≠ 0 → arraySize bucketSize (table.bucketsMask + 1) < 2 ^ 63
  within : Within maxLoad table

theorem Sized.of_le {table' : Table K V} (h : Sized maxLoad bucketSize table)
    (hMask : table'.bucketsMask = table.bucketsMask) (hCount : table'.keyCount ≤ table.keyCount) :
    Sized maxLoad bucketSize table' :=
  ⟨hMask ▸ h.allocated, h.within.of_le hMask hCount⟩

theorem sized_init (maxLoad : ℚ) (bucketSize : Nat) (memory : Nat → K × V) :
    Sized maxLoad bucketSize (init memory) :=
  ⟨fun hNe => absurd rfl hNe, fun hNe => absurd rfl hNe⟩

/-- The call did not get the array that it asked for, which has as many buckets as
it asked for first, or twice as many as a table that was stuck. -/
def Short (maxLoad : ℚ) (bucketSize : Nat) (allocator : Allocator) (bp : Blueprint K V)
    (first count : Nat) : Prop :=
  ∃ bucketCount, allocator.malloc (totalAllocSize bucketSize bucketCount) = false ∧
    (bucketCount = first ∨
      ∃ k, bucketCount = 2 ^ (k + 1) ∧ Stuck maxLoad bp (2 ^ k - 1) count)

section Rehash

variable {bucketCount k : Nat}

/-- A new table of this size takes over the pairs, or it has too few of them. -/
theorem Kept.reinsert_returns (h : Kept bp table stored) (maxLoad : ℚ) (memory : Nat → K × V)
    (hCount : bucketCount = 2 ^ k) :
    ∃ new, ReturnsTo (fun fuel => reinsertFrom maxLoad bp fuel table table.bucketCount 0
        (newTable memory bucketCount)) new ∧ new.bucketsMask = bucketCount - 1 ∧
      (Sound bp new stored ∧ Within maxLoad new ∨
        new.keyCount < table.keyCount ∧ Stuck maxLoad bp (bucketCount - 1) stored.card) := by
  have hNodup := h.nodup
  rw [← h.contents_bucketCount] at hNodup
  obtain ⟨new, hReturns, hMask, hCases⟩ := reinsertFrom_returns maxLoad hNodup (Nat.zero_add _)
    (sound_newTable bp memory hCount) fun hNe => absurd rfl hNe
  rw [h.contents_bucketCount, ← h.keyCount_eq] at hCases
  exact ⟨new, hReturns, hMask, h.keyCount_eq ▸ hCases⟩

/-- A rehash that returns has kept the pairs, or an allocation failed. -/
theorem Kept.rehash_returned (h : Kept bp table stored) (hCount : bucketCount = 2 ^ k) {fuel : Nat}
    {done : Bool} {table' : Table K V}
    (hEq : rehash maxLoad bucketSize memory allocator bp fuel table bucketCount =
      some (done, table')) :
    done = true ∧ Sound bp table' stored ∧ Sized maxLoad bucketSize table' ∧
        bucketCount ≤ table'.bucketsMask + 1 ∨
      done = false ∧ table' = table ∧
        Short maxLoad bucketSize allocator bp bucketCount stored.card := by
  induction fuel generalizing bucketCount k with
  | zero => cases hEq
  | succ fuel ih =>
      have hPos : 0 < bucketCount := hCount ▸ Nat.two_pow_pos k
      rw [rehash] at hEq
      split_ifs at hEq with hMalloc hWraps
      · cases hEq
        exact Or.inr ⟨rfl, rfl, bucketCount, hMalloc, Or.inl rfl⟩
      · have hFits := Nat.lt_of_not_le hWraps
        obtain ⟨new, hReturns, hMask, hCases⟩ := h.reinsert_returns maxLoad memory hCount
        obtain ⟨new', hNew, hEq⟩ := Option.bind_eq_some_iff.mp hEq
        obtain rfl := (steady_reinsertFrom _ _ _ _ _ _).eq_of_returnsTo hReturns hNew
        have hTop : new'.bucketsMask + 1 = bucketCount := by omega
        split_ifs at hEq with hFewer
        · have hStuck : Stuck maxLoad bp (2 ^ k - 1) stored.card := by
            refine hCount ▸ (hCases.resolve_left fun hSound => ?_).2
            rw [hSound.1.keyCount_eq, h.keyCount_eq] at hFewer
            exact Nat.lt_irrefl _ hFewer
          have hDouble : doubled bucketCount = 2 ^ (k + 1) := by
            rw [doubled_eq hFits, hCount, pow_succ]
          rcases ih hDouble hEq with ⟨hDone, hSound, hSized, hLe⟩ |
            ⟨hDone, hSame, failed, hFailed, hFirst⟩
          · rw [doubled_eq hFits] at hLe
            exact Or.inl ⟨hDone, hSound, hSized, by omega⟩
          · exact Or.inr ⟨hDone, hSame, failed, hFailed, Or.inr (hFirst.elim
              (fun hFirst => ⟨k, hFirst.trans hDouble, hStuck⟩) id)⟩
        · cases hEq
          obtain ⟨hSound, hWithin⟩ := hCases.resolve_right fun hShort => hFewer hShort.1
          have hAllocated := arraySize_lt_of_malloc hFits (Bool.eq_true_of_not_eq_false hMalloc)
          exact Or.inl ⟨rfl, hSound, ⟨fun _ => hTop ▸ hAllocated, hWithin⟩, hTop.ge⟩

/-- A rehash ends, at the latest where an array is larger than any that can be
allocated. -/
theorem Kept.rehash_returns (h : Kept bp table stored) (maxLoad : ℚ) (memory : Nat → K × V)
    (allocator : Allocator) (hCount : bucketCount = 2 ^ k)
    (hFits : arraySize bucketSize bucketCount < 2 ^ 64) :
    ∃ result, ReturnsTo (fun fuel =>
      rehash maxLoad bucketSize memory allocator bp fuel table bucketCount) result := by
  obtain ⟨doublings, hLimit⟩ : ∃ doublings, 2 ^ 63 ≤ bucketCount * 2 ^ doublings :=
    ⟨63, Nat.le_mul_of_pos_left _ (hCount ▸ Nat.two_pow_pos k)⟩
  induction doublings generalizing bucketCount k with
  | zero =>
      refine ⟨(false, table), ReturnsTo.of_succ ?_⟩
      have hMalloc : allocator.malloc (totalAllocSize bucketSize bucketCount) = false := by
        refine Bool.eq_false_iff.mpr fun hMalloc => ?_
        have hAllocated := arraySize_lt_of_malloc hFits hMalloc
        have hLt : bucketCount * 2 < arraySize bucketSize bucketCount := lt_arraySize
        omega
      simp only [rehash, if_pos hMalloc]
      exact ReturnsTo.pure _
  | succ doublings ih =>
      obtain ⟨new, hNew, _⟩ := h.reinsert_returns maxLoad memory hCount
      by_cases hMalloc : allocator.malloc (totalAllocSize bucketSize bucketCount) = false
      · refine ⟨(false, table), ReturnsTo.of_succ ?_⟩
        simp only [rehash, if_pos hMalloc]
        exact ReturnsTo.pure _
      by_cases hFewer : new.keyCount < table.keyCount
      · have hAllocated := arraySize_lt_of_malloc hFits (Bool.eq_true_of_not_eq_false hMalloc)
        have hDouble : doubled bucketCount = bucketCount * 2 := doubled_eq hFits
        have hNextCount : bucketCount * 2 = 2 ^ (k + 1) := by rw [hCount, pow_succ]
        obtain ⟨result, hNext⟩ := ih hNextCount (arraySize_double_lt hAllocated)
          (by rwa [Nat.mul_assoc, ← pow_succ'])
        refine ⟨result, ReturnsTo.of_succ ?_⟩
        simp only [rehash, if_neg hMalloc, if_neg (not_le.mpr hFits)]
        refine hNew.succ.bind ?_
        simp only [if_pos hFewer, hDouble]
        exact hNext
      · refine ⟨(true, new), ReturnsTo.of_succ ?_⟩
        simp only [rehash, if_neg hMalloc, if_neg (not_le.mpr hFits)]
        refine hNew.succ.bind ?_
        simp only [if_neg hFewer]
        exact ReturnsTo.pure _

end Rehash

section InsertLoop

variable {replace : Bool}

/-- What an insertion returns: the pair is new, or one with a matching key was met. -/
structure Inserted (bp : Blueprint K V) (stored : Multiset (K × V)) (key : K) (val : V)
    (replace : Bool) (table' : Table K V) (itr : Itr) : Prop where
  sound : bp.cls key ∉ bp.keyClasses stored ∧ Sound bp table' ((key, val) ::ₘ stored) ∨
    ∃ pair rest, stored = pair ::ₘ rest ∧ bp.cmprKeys pair.1 key = true ∧
      Sound bp table' ((if replace then (key, val) else pair) ::ₘ rest)
  pointsAt : ∃ p, PointsAt bp table' itr p ∧ bp.cmprKeys (table'.buckets p).1 key = true

theorem Added.inserted {table' : Table K V} {itr : Itr}
    (h : Added maxLoad bp table stored key val table' itr)
    (hAbsent : bp.cls key ∉ bp.keyClasses stored) :
    Inserted bp stored key val replace table' itr := by
  obtain ⟨p, hAt, hPair⟩ := h.pointsAt
  exact ⟨Or.inl ⟨hAbsent, h.sound⟩, p, hAt, hPair ▸ bp.cmprKeys_refl key⟩

theorem Met.inserted {table' : Table K V} {itr : Itr}
    (h : Met bp table stored key val replace table' itr) :
    Inserted bp stored key val replace table' itr := ⟨Or.inr h.sound, h.pointsAt⟩

theorem Met.sized {table' : Table K V} {itr : Itr}
    (h : Met bp table stored key val replace table' itr) (hCount : table.keyCount = stored.card)
    (hSized : Sized maxLoad bucketSize table) : Sized maxLoad bucketSize table' := by
  obtain ⟨pair, rest, hStored, _, hSound⟩ := h.sound
  refine hSized.of_le h.mask ?_
  rw [hSound.keyCount_eq, hCount, hStored, Multiset.card_cons, Multiset.card_cons]

/-- An insertion tries again with twice the buckets, or with the first ones. -/
theorem Kept.grown_eq (h : Kept bp table stored) (hSized : Sized maxLoad bucketSize table) :
    ∃ k, grown table = 2 ^ k ∧ (table.bucketsMask + 1) * 2 ≤ grown table ∧
      (grown table = vtMinNonzeroBucketCount ∨
        ∃ j, grown table = 2 ^ (j + 1) ∧ table.bucketsMask = 2 ^ j - 1) := by
  unfold grown
  split_ifs with hMask
  · obtain ⟨k, hk⟩ := h.mask
    have hPow : (table.bucketsMask + 1) * 2 = 2 ^ (k + 1) := by rw [hk, pow_succ]
    rw [Table.bucketCount_eq hMask, doubled_eq ((hSized.allocated hMask).trans (by decide))]
    exact ⟨k + 1, hPow, le_rfl, Or.inr ⟨k, hPow, by omega⟩⟩
  · rw [not_not.mp hMask]
    exact ⟨3, rfl, by decide, Or.inl rfl⟩

theorem Sized.grown_fits (h : Sized maxLoad bucketSize table)
    (hFirst : arraySize bucketSize vtMinNonzeroBucketCount < 2 ^ 64) :
    arraySize bucketSize (grown table) < 2 ^ 64 := by
  unfold grown
  split_ifs with hMask
  · have hAllocated := h.allocated hMask
    rw [Table.bucketCount_eq hMask, doubled_eq (hAllocated.trans (by decide))]
    exact arraySize_double_lt hAllocated
  · exact hFirst

theorem Stuck.mono {bucketsMask count count' : Nat} (h : Stuck maxLoad bp bucketsMask count)
    (hLe : count ≤ count') : Stuck maxLoad bp bucketsMask count' := by
  obtain ⟨table, stored, hSound, hMask, hCard, hCause⟩ := h
  exact ⟨table, stored, hSound, hMask, hCard.trans_le hLe, hCause⟩

/-- A table that refused a key is replaced by a larger one, or an allocation failed. -/
theorem Refused.rehash_returned {table₁ : Table K V} {itr : Itr}
    (h : Refused maxLoad bp table stored table₁ itr) (hSound : Sound bp table stored)
    (hSized : Sized maxLoad bucketSize table₁) {fuel : Nat} {done : Bool} {table' : Table K V}
    (hEq : rehash maxLoad bucketSize memory allocator bp fuel table₁ (grown table₁) =
      some (done, table')) :
    done = true ∧ Sound bp table' stored ∧ Sized maxLoad bucketSize table' ∧
        (table.bucketsMask + 1) * 2 ≤ table'.bucketsMask + 1 ∨
      done = false ∧
        Short maxLoad bucketSize allocator bp vtMinNonzeroBucketCount (stored.card + 1) := by
  obtain ⟨k, hCount, hDouble, hFirst⟩ := h.kept.grown_eq hSized
  rw [h.mask] at hDouble hFirst
  rcases h.kept.rehash_returned hCount hEq with
    ⟨hDone, hSound', hSized', hLe⟩ | ⟨hDone, _, failed, hFailed, hAsked⟩
  · exact Or.inl ⟨hDone, hSound', hSized', hDouble.trans hLe⟩
  · refine Or.inr ⟨hDone, failed, hFailed, ?_⟩
    rcases hAsked with rfl | ⟨j, hj, hStuck⟩
    · rcases hFirst with hEight | ⟨j, hj, hMask⟩
      · exact Or.inl hEight
      · exact Or.inr ⟨j, hj, table, stored, hSound, hMask, Nat.lt_succ_self _, h.cause⟩
    · exact Or.inr ⟨j, hj, hStuck.mono (Nat.le_succ _)⟩

theorem Refused.sized {table₁ : Table K V} {itr : Itr}
    (h : Refused maxLoad bp table stored table₁ itr) (hSound : Sound bp table stored)
    (hSized : Sized maxLoad bucketSize table) : Sized maxLoad bucketSize table₁ :=
  hSized.of_le h.mask (h.kept.keyCount_eq.trans hSound.keyCount_eq.symm).le

/-- An insertion that returns has inserted the key, or an allocation failed. -/
theorem Sound.insertLoop_returned (h : Sound bp table stored)
    (hSized : Sized maxLoad bucketSize table) {fuel : Nat} {table' : Table K V} {itr : Itr}
    (hEq : insertLoop maxLoad bucketSize memory allocator bp replace fuel table key val =
      some (table', itr)) :
    Inserted bp stored key val replace table' itr ∧ Sized maxLoad bucketSize table' ∨
      isEnd itr = true ∧ bp.cls key ∉ bp.keyClasses stored ∧
        Short maxLoad bucketSize allocator bp vtMinNonzeroBucketCount (stored.card + 1) := by
  induction fuel generalizing table with
  | zero => cases hEq
  | succ fuel ih =>
      rw [insertLoop] at hEq
      obtain ⟨⟨table₁, itr₁⟩, hAttempt, hEq⟩ := Option.bind_eq_some_iff.mp hEq
      have hCases := h.insertRaw_returned (fun hUnique => by cases hUnique) hAttempt
      rcases hCases with ⟨hAbsent, hAdded | hRefused⟩ | hMet
      · obtain ⟨p, hAt, _⟩ := hAdded.pointsAt
        simp only [hAt.not_end, Bool.not_false, if_true] at hEq
        cases hEq
        exact Or.inl ⟨hAdded.inserted hAbsent, hAdded.mask ▸ hSized.allocated,
          hAdded.within h.keyCount_eq⟩
      · simp only [hRefused.isEnd, Bool.not_true, Bool.false_eq_true, if_false] at hEq
        obtain ⟨⟨done, table₂⟩, hRehash, hEq⟩ := Option.bind_eq_some_iff.mp hEq
        rcases hRefused.rehash_returned h (hRefused.sized h hSized) hRehash with
          ⟨rfl, hSound, hSized', _⟩ | ⟨rfl, hShort⟩
        · simp only [Bool.not_true, Bool.false_eq_true, if_false] at hEq
          exact ih hSound hSized' hEq
        · simp only [Bool.not_false, if_true] at hEq
          cases hEq
          exact Or.inr ⟨hRefused.isEnd, hAbsent, hShort⟩
      · obtain ⟨p, hAt, _⟩ := hMet.pointsAt
        simp only [hAt.not_end, Bool.not_false, if_true] at hEq
        cases hEq
        exact Or.inl ⟨hMet.inserted, hMet.sized h.keyCount_eq hSized⟩

theorem insertLoop_done {table' : Table K V} {itr : Itr}
    (hAttempt : ReturnsTo (fun fuel => insertRaw maxLoad bp fuel table key val false replace)
      (table', itr)) (hEnd : isEnd itr = false) :
    ReturnsTo (fun fuel => insertLoop maxLoad bucketSize memory allocator bp replace fuel table key
      val) (table', itr) := by
  refine ReturnsTo.of_succ ?_
  simp only [insertLoop]
  refine hAttempt.succ.bind ?_
  simp only [hEnd, Bool.not_false, if_true]
  exact ReturnsTo.pure _

/-- An insertion ends, since a table that refuses the key is replaced by one at
least twice as large. -/
theorem Sound.insertLoop_returns (h : Sound bp table stored)
    (hSized : Sized maxLoad bucketSize table)
    (hFirst : arraySize bucketSize vtMinNonzeroBucketCount < 2 ^ 64) (memory : Nat → K × V)
    (allocator : Allocator) (replace : Bool) (key : K) (val : V) :
    ∃ result, ReturnsTo (fun fuel =>
      insertLoop maxLoad bucketSize memory allocator bp replace fuel table key val) result := by
  obtain ⟨doublings, hLimit⟩ : ∃ doublings, 2 ^ 63 ≤ (table.bucketsMask + 1) * 2 ^ doublings :=
    ⟨63, Nat.le_mul_of_pos_left _ (Nat.succ_pos _)⟩
  induction doublings generalizing table with
  | zero =>
      have hMask : table.bucketsMask ≠ 0 := by omega
      have hAllocated := hSized.allocated hMask
      have hLt : (table.bucketsMask + 1) * 2 < arraySize bucketSize (table.bucketsMask + 1) :=
        lt_arraySize
      omega
  | succ doublings ih =>
      obtain ⟨table₁, itr, hAttempt, ⟨_, hAdded | hRefused⟩ | hMet⟩ :=
        h.insertRaw_returns maxLoad key val false replace fun hUnique => by cases hUnique
      · obtain ⟨p, hAt, _⟩ := hAdded.pointsAt
        exact ⟨_, insertLoop_done hAttempt hAt.not_end⟩
      · have hSized₁ := hRefused.sized h hSized
        obtain ⟨k, hCount, _⟩ := hRefused.kept.grown_eq hSized₁
        obtain ⟨⟨done, table₂⟩, hRehash⟩ := hRefused.kept.rehash_returns maxLoad memory allocator
          hCount (hSized₁.grown_fits hFirst)
        obtain ⟨fuel, hReturned⟩ := hRehash.exists_fuel
        rcases hRefused.rehash_returned h hSized₁ hReturned with
          ⟨rfl, hSound, hSized', hSize⟩ | ⟨rfl, _⟩
        · obtain ⟨result, hNext⟩ := ih hSound hSized' <| hLimit.trans <| by
            rw [pow_succ', ← Nat.mul_assoc]
            exact Nat.mul_le_mul_right _ hSize
          refine ⟨result, ReturnsTo.of_succ ?_⟩
          simp only [insertLoop]
          refine hAttempt.succ.bind ?_
          simp only [hRefused.isEnd, Bool.not_true, Bool.false_eq_true, if_false]
          refine hRehash.succ.bind ?_
          simp only [Bool.not_true, Bool.false_eq_true, if_false]
          exact hNext
        · refine ⟨(table₂, itr), ReturnsTo.of_succ ?_⟩
          simp only [insertLoop]
          refine hAttempt.succ.bind ?_
          simp only [hRefused.isEnd, Bool.not_true, Bool.false_eq_true, if_false]
          refine hRehash.succ.bind ?_
          simp only [Bool.not_false, if_true]
          exact ReturnsTo.pure _
      · obtain ⟨p, hAt, _⟩ := hMet.pointsAt
        exact ⟨_, insertLoop_done hAttempt hAt.not_end⟩

end InsertLoop

section Requests

/-- Some power of two of buckets is enough for this many keys, and has an array whose
size does not wrap around. -/
def Fits (maxLoad : ℚ) (bucketSize size : Nat) : Prop :=
  ∃ m, 3 ≤ m ∧ (size : ℚ) ≤ (2 ^ m : Nat) * maxLoad ∧ arraySize bucketSize (2 ^ m) < 2 ^ 64

/-- The number of buckets for keys that fit has an array whose size does not wrap around. -/
theorem Fits.minBucketCount {size : Nat} (h : Fits maxLoad bucketSize size) :
    ∃ bucketCount, ReturnsTo (fun fuel => minBucketCountForSize maxLoad fuel size) bucketCount ∧
      (bucketCount = 0 ∨
        (∃ k, bucketCount = 2 ^ k) ∧ arraySize bucketSize bucketCount < 2 ^ 64) := by
  obtain ⟨m, hLow, hEnough, hFits⟩ := h
  have hm := lt_of_arraySize_two_pow hFits
  obtain ⟨bucketCount, hReturns, hZero | ⟨j, hj, rfl⟩⟩ :=
    minBucketCountForSize_returns hLow hm hEnough
  · exact ⟨bucketCount, hReturns, Or.inl hZero⟩
  · have hLe : arraySize bucketSize (2 ^ j) ≤ arraySize bucketSize (2 ^ m) :=
      arraySize_mono (Nat.pow_le_pow_right Nat.two_pos hj)
    exact ⟨2 ^ j, hReturns, Or.inr ⟨⟨j, rfl⟩, hLe.trans_lt hFits⟩⟩

/-- The keys of a table fit. -/
theorem Sound.fits (h : Sound bp table stored) (hSized : Sized maxLoad bucketSize table)
    (hFirst : arraySize bucketSize vtMinNonzeroBucketCount < 2 ^ 64) (hCount : table.keyCount ≠ 0) :
    Fits maxLoad bucketSize table.keyCount := by
  obtain ⟨k, hk⟩ := h.mask
  have hMask := h.mask_ne_zero_of_count hCount
  have hLoad := hSized.within hCount
  have hAllocated := hSized.allocated hMask
  rw [Table.bucketCount_eq hMask, hk] at hLoad
  rw [hk] at hAllocated
  rcases Nat.le_total 3 k with hLow | hHigh
  · exact ⟨k, hLow, hLoad, hAllocated.trans (by decide)⟩
  · refine ⟨3, le_rfl, hLoad.trans (mul_le_mul_of_nonneg_right ?_ ?_), hFirst⟩
    · exact_mod_cast Nat.pow_le_pow_right Nat.two_pos hHigh
    · have hPos : (0 : ℚ) < table.keyCount := by exact_mod_cast Nat.pos_of_ne_zero hCount
      exact (pos_of_mul_pos_right (hPos.trans_le hLoad) (Nat.cast_nonneg _)).le

/-- What making room for `size` keys returns: a table with the same pairs, or the
table as it was after an allocation failed. -/
def Resized (maxLoad : ℚ) (bucketSize : Nat) (allocator : Allocator) (bp : Blueprint K V)
    (table : Table K V) (stored : Multiset (K × V)) (fuel size : Nat) (done : Bool)
    (table' : Table K V) : Prop :=
  done = true ∧ Sound bp table' stored ∧ Sized maxLoad bucketSize table' ∨
    done = false ∧ table' = table ∧ ∃ k, minBucketCountForSize maxLoad fuel size = some (2 ^ k) ∧
      Short maxLoad bucketSize allocator bp (2 ^ k) stored.card

variable {fuel size : Nat} {done : Bool} {table' : Table K V}

theorem Kept.resized (h : Kept bp table stored) {k fuel' : Nat}
    (hSize : minBucketCountForSize maxLoad fuel size = some (2 ^ k))
    (hEq : rehash maxLoad bucketSize memory allocator bp fuel' table (2 ^ k) =
      some (done, table')) :
    Resized maxLoad bucketSize allocator bp table stored fuel size done table' := by
  rcases h.rehash_returned rfl hEq with ⟨hDone, hSound, hSized, _⟩ | ⟨hDone, hSame, hShort⟩
  · exact Or.inl ⟨hDone, hSound, hSized⟩
  · exact Or.inr ⟨hDone, hSame, k, hSize, hShort⟩

theorem Sound.reserve_returned (h : Sound bp table stored)
    (hSized : Sized maxLoad bucketSize table)
    (hEq : reserve maxLoad bucketSize memory allocator bp fuel table size = some (done, table')) :
    Resized maxLoad bucketSize allocator bp table stored fuel size done table' := by
  unfold reserve at hEq
  obtain ⟨bucketCount, hSize, hEq⟩ := Option.bind_eq_some_iff.mp hEq
  split_ifs at hEq with hLe
  · cases hEq
    exact Or.inl ⟨rfl, h, hSized⟩
  · rcases minBucketCountForSize_returned hSize with ⟨_, rfl⟩ | ⟨k, rfl⟩
    · exact absurd (Nat.zero_le _) hLe
    · exact h.toKept.resized hSize hEq

theorem Sound.shrink_returned (h : Sound bp table stored)
    (hSized : Sized maxLoad bucketSize table)
    (hEq : shrink maxLoad bucketSize memory allocator bp fuel table = some (done, table')) :
    Resized maxLoad bucketSize allocator bp table stored fuel table.keyCount done table' := by
  unfold shrink at hEq
  obtain ⟨bucketCount, hSize, hEq⟩ := Option.bind_eq_some_iff.mp hEq
  split_ifs at hEq with hSame hZero
  · cases hEq
    exact Or.inl ⟨rfl, h, hSized⟩
  · have hCount : table.keyCount = 0 := by
      rcases minBucketCountForSize_returned hSize with ⟨hCount, _⟩ | ⟨k, hPow⟩
      · exact hCount
      · exact absurd (hPow.symm.trans hZero) (Nat.two_pow_pos k).ne'
    obtain rfl := Multiset.card_eq_zero.mp (h.keyCount_eq.symm.trans hCount)
    cases hEq
    exact Or.inl ⟨rfl, Sound.of_vacant ⟨0, rfl⟩ (fun _ _ => rfl) hCount fun hNe => absurd rfl hNe,
      fun hNe => absurd rfl hNe, fun hNe => absurd hCount hNe⟩
  · rcases minBucketCountForSize_returned hSize with ⟨_, rfl⟩ | ⟨k, rfl⟩
    · exact absurd rfl hZero
    · exact h.toKept.resized hSize hEq

theorem Sound.reserve_returns (h : Sound bp table stored) (memory : Nat → K × V)
    (allocator : Allocator) (hFits : Fits maxLoad bucketSize size) :
    ∃ result, ReturnsTo (fun fuel =>
      reserve maxLoad bucketSize memory allocator bp fuel table size) result := by
  obtain ⟨bucketCount, hSize, hCases⟩ := hFits.minBucketCount
  unfold reserve
  by_cases hLe : bucketCount ≤ table.bucketCount
  · refine ⟨(true, table), hSize.bind ?_⟩
    simp only [if_pos hLe]
    exact ReturnsTo.pure _
  · obtain ⟨⟨k, hCount⟩, hArray⟩ := hCases.resolve_left fun hZero => hLe (hZero ▸ Nat.zero_le _)
    obtain ⟨result, hRehash⟩ := h.toKept.rehash_returns maxLoad memory allocator hCount hArray
    refine ⟨result, hSize.bind ?_⟩
    simp only [if_neg hLe]
    exact hRehash

theorem Sound.shrink_returns (h : Sound bp table stored) (hSized : Sized maxLoad bucketSize table)
    (hFirst : arraySize bucketSize vtMinNonzeroBucketCount < 2 ^ 64) (memory : Nat → K × V)
    (allocator : Allocator) :
    ∃ result, ReturnsTo (fun fuel =>
      shrink maxLoad bucketSize memory allocator bp fuel table) result := by
  obtain ⟨bucketCount, hSize, hCases⟩ : ∃ bucketCount,
      ReturnsTo (fun fuel => minBucketCountForSize maxLoad fuel table.keyCount) bucketCount ∧
        (bucketCount = 0 ∨
          (∃ k, bucketCount = 2 ^ k) ∧ arraySize bucketSize bucketCount < 2 ^ 64) := by
    by_cases hCount : table.keyCount = 0
    · simp only [minBucketCountForSize, if_pos hCount]
      exact ⟨0, ReturnsTo.pure _, Or.inl rfl⟩
    · exact (h.fits hSized hFirst hCount).minBucketCount
  unfold shrink
  by_cases hSame : bucketCount = table.bucketCount
  · refine ⟨(true, table), hSize.bind ?_⟩
    simp only [if_pos hSame]
    exact ReturnsTo.pure _
  by_cases hZero : bucketCount = 0
  · refine ⟨(true, { table with bucketsMask := 0, metadata := fun _ => vtEmpty }), hSize.bind ?_⟩
    simp only [if_neg hSame, if_pos hZero]
    exact ReturnsTo.pure _
  · obtain ⟨⟨k, hCount⟩, hArray⟩ := hCases.resolve_left hZero
    obtain ⟨result, hRehash⟩ := h.toKept.rehash_returns maxLoad memory allocator hCount hArray
    refine ⟨result, hSize.bind ?_⟩
    simp only [if_neg hSame, if_neg hZero]
    exact hRehash

end Requests

/-- Clearing empties the buckets and leaves the stopper. -/
theorem Sound.clear (h : Sound bp table stored) : Sound bp (clear table) 0 := by
  unfold Verstable.clear
  split_ifs with hCount
  · obtain rfl := Multiset.card_eq_zero.mp (h.keyCount_eq.symm.trans hCount)
    exact h
  · have hMask := h.mask_ne_zero_of_count hCount
    have hBuckets := Table.bucketCount_eq hMask
    refine Sound.of_vacant h.mask (fun p hp => ?_) rfl fun _ => ?_
    · exact if_pos (hBuckets ▸ Nat.lt_succ_of_le hp)
    · refine (if_neg ?_).trans_ne (h.stopper hMask)
      rw [hBuckets]
      exact Nat.lt_irrefl _

theorem Sized.clear (h : Sized maxLoad bucketSize table) :
    Sized maxLoad bucketSize (clear table) := by
  unfold Verstable.clear
  split_ifs
  · exact h
  · exact h.of_le rfl (Nat.zero_le _)

end HashBench.Verstable
