import HashBench.Verstable.Grow
import Mathlib.Tactic.NormNum

/-! Runs of calls. Whatever the hash function is, a call either does its work or
fails where an allocation does, and up to 2047 keys find room within the
displacement limit, so that no more than enough buckets are asked for. -/
namespace HashBench.Verstable

open Search Chains OpenAddressing

variable {K V : Type} {maxLoad : ℚ} {bucketSize : Nat} {memory : Nat → K × V}
  {bp : Blueprint K V} {table : Table K V} {key : K} {val : V} {stored : Multiset (K × V)}

section Room

/-- The buckets along the probe from a home bucket differ. -/
theorem bucketAt_injOn (h : ∃ k, table.bucketsMask + 1 = 2 ^ k) (home : Nat) {d e : Nat}
    (hd : d < table.bucketsMask + 1) (he : e < table.bucketsMask + 1)
    (hSame : table.bucketAt home d = table.bucketAt home e) : d = e := by
  obtain ⟨k, hk⟩ := h
  have hAt (d : Nat) : table.bucketAt home d = (home + Triangular.offset d) % 2 ^ k := by
    rw [Table.bucketAt, vtQuadratic_eq, Nat.eq_sub_of_add_eq hk, Nat.and_two_pow_sub_one_eq_mod]
  rw [hAt, hAt] at hSame
  rw [hk] at hd he
  have hMod := Nat.ModEq.add_left_cancel' home hSame
  rcases Nat.lt_trichotomy d e with hLt | hEq | hGt
  · exact absurd hMod (Triangular.offset_injOn he hLt)
  · exact hEq
  · exact absurd hMod.symm (Triangular.offset_injOn hd hGt)

/-- Where an empty bucket is in reach of any probe. -/
theorem Sound.not_crowded (h : Sound bp table stored) (hBuckets : stored.card < table.bucketsMask + 1)
    (hFew : stored.card < 2047) : ¬ Crowded table := by
  rintro ⟨home, hHome, hFull⟩
  obtain ⟨disp, hLinked⟩ := h.linked
  have hOccupied : ∀ d ∈ Finset.range (stored.card + 1), table.bucketAt home d ∈
      (Finset.range (table.bucketsMask + 1)).filter fun p => (slots table p).isLive = true := by
    intro d hd
    have hd : d < stored.card + 1 := Finset.mem_range.mp hd
    have hLe : table.bucketAt home d < table.bucketsMask + 1 := Nat.lt_succ_of_le Nat.and_le_right
    have hNe : table.metadata (table.bucketAt home d) ≠ vtEmpty := by
      rcases Nat.eq_zero_or_pos d with rfl | hPos
      · rw [hLinked.bucketAt_zero hHome.1]
        exact hHome.2
      · exact hFull d hPos (by omega)
    refine Finset.mem_filter.mpr ⟨Finset.mem_range.mpr hLe, ?_⟩
    rw [slots_of_ne hNe]
    rfl
  have hInjective : Set.InjOn (table.bucketAt home) (Finset.range (stored.card + 1)) := by
    intro d hd e he hSame
    have hd := Finset.mem_range.mp hd
    have he := Finset.mem_range.mp he
    exact bucketAt_injOn h.mask home (by omega) (by omega) hSame
  have hLe := Finset.card_le_card_of_injOn _ hOccupied hInjective
  rw [Finset.card_range, card_filter_live, h.contents_eq] at hLe
  omega

/-- Tables with enough buckets take up to 2047 keys. -/
theorem not_stuck (hHigh : maxLoad ≤ 1) {mask count : Nat} (hMask : mask ≠ 0)
    (hFits : (count : ℚ) ≤ (mask + 1 : Nat) * maxLoad) (hFew : count ≤ 2047) :
    ¬ Stuck maxLoad bp mask count := by
  rintro ⟨table, stored, h, rfl, hCard, hLoad | hCrowded⟩
  · rw [Table.Overloaded, Table.bucketCount_eq hMask, h.keyCount_eq] at hLoad
    have hLess : (stored.card + 1 : Nat) ≤ (count : ℚ) := by exact_mod_cast hCard
    exact absurd hLoad (not_lt.mpr (hLess.trans hFits))
  · refine h.not_crowded (hCard.trans_le ?_) (by omega) hCrowded
    have hAll : (count : ℚ) ≤ (table.bucketsMask + 1 : Nat) :=
      hFits.trans (mul_le_of_le_one_right (Nat.cast_nonneg _) hHigh)
    exact_mod_cast hAll

end Room

section Calls

/-- A call, and which of the allocations that it asks for succeed. -/
structure Call (K V : Type) where
  allocator : Allocator
  op : MapOp K V

variable (maxLoad bucketSize memory bp)

/-- Whether a call succeeded, and the table after it. -/
def call (fuel : Nat) (table : Table K V) (c : Call K V) : Option (Bool × Table K V) :=
  match c.op with
  | .insert key val =>
      (insert maxLoad bucketSize memory c.allocator bp fuel table key val).map
        fun result => (!isEnd result.2, result.1)
  | .getOrInsert key val =>
      (getOrInsert maxLoad bucketSize memory c.allocator bp fuel table key val).map
        fun result => (!isEnd result.2, result.1)
  | .erase key => (erase bp fuel table key).map fun result => (true, result.1)
  | .reserve size => reserve maxLoad bucketSize memory c.allocator bp fuel table size
  | .shrink => shrink maxLoad bucketSize memory c.allocator bp fuel table
  | .clear => some (true, clear table)

/-- A run goes on after the calls that succeed. -/
def step (fuel : Nat) : Bool × Table K V → Call K V → Option (Bool × Table K V)
  | (true, table), c => call maxLoad bucketSize memory bp fuel table c
  | (false, table), _ => some (false, table)

/-- Whether all of these calls succeeded in this order, and the table after the last
one or the first one that failed. -/
def run (fuel : Nat) (calls : List (Call K V)) : Option (Bool × Table K V) :=
  calls.foldlM (step maxLoad bucketSize memory bp fuel) (true, init memory)

variable {maxLoad bucketSize memory bp}

/-- The pair at an iterator. -/
def pairAt (table : Table K V) (itr : Itr) : Option (K × V) :=
  if isEnd itr then none else some (table.buckets itr.data)

/-- The table holds what is found. -/
def Stores (maxLoad : ℚ) (bucketSize : Nat) (bp : Blueprint K V) (table : Table K V)
    (found : K → Option (K × V)) : Prop :=
  ∃ stored, Sound bp table stored ∧ Sized maxLoad bucketSize table ∧ bp.Finds stored found

/-- The number of keys that a call is to make room for. -/
def requested : MapOp K V → Nat
  | .reserve size => size
  | _ => 0

/-- Why a call fails: it did not get an array for the keys that it was to leave. An
insertion of a new key may have changed the table. -/
structure Failed (maxLoad : ℚ) (bucketSize : Nat) (bp : Blueprint K V)
    (found : K → Option (K × V)) (c : Call K V) (table table' : Table K V) : Prop where
  short : ∃ stored j, bp.Finds stored (bp.applyOp found c.op) ∧ (bp.keyClasses stored).Nodup ∧
    Short maxLoad bucketSize c.allocator bp (2 ^ j) stored.card ∧
    (2 ^ j = vtMinNonzeroBucketCount ∨ ∃ fuel size, size ≤ max stored.card (requested c.op) ∧
      minBucketCountForSize maxLoad fuel size = some (2 ^ j))
  unchanged : table' = table ∨
    ∃ key val, (c.op = .insert key val ∨ c.op = .getOrInsert key val) ∧ found key = none

variable {found : K → Option (K × V)} {allocator : Allocator} {table' : Table K V} {fuel : Nat}

/-- Whatever points at a stored pair points at the one that its key finds. -/
theorem pairAt_eq {itr : Itr} (hSound : Sound bp table stored) (hFinds : bp.Finds stored found)
    {p : Nat} (hAt : PointsAt bp table itr p)
    (hKey : bp.cmprKeys (table.buckets p).1 key = true) : pairAt table itr = found key := by
  have hStored := hSound.mem_stored.mpr ⟨p, hAt.occupied, rfl⟩
  rw [pairAt, hAt.not_end, if_neg Bool.false_ne_true, hAt.data]
  exact ((hFinds key _).mpr ⟨hStored, hKey⟩).symm

/-- The call that inserts a key, with or without replacing the pair that has it. -/
def insertion (replace : Bool) (key : K) (val : V) : MapOp K V :=
  if replace then .insert key val else .getOrInsert key val

section Insertion

variable {replace : Bool} {itr : Itr}

theorem applyOp_insertion_of_none (bp : Blueprint K V) (replace : Bool) (val : V)
    (hNone : found key = none) :
    bp.applyOp found (insertion replace key val) = bp.put found key val := by
  cases replace with
  | true => rfl
  | false =>
      refine if_neg ?_
      rw [hNone]
      exact Bool.false_ne_true

theorem Inserted.exists_stored (h : Inserted bp stored key val replace table' itr)
    (hFinds : bp.Finds stored found) (hNodup : (bp.keyClasses stored).Nodup) :
    ∃ stored', Sound bp table' stored' ∧
      bp.Finds stored' (bp.applyOp found (insertion replace key val)) := by
  rcases h.sound with ⟨hAbsent, hSound⟩ | ⟨pair, rest, rfl, hKey, hSound⟩
  · rw [applyOp_insertion_of_none bp replace val (hFinds.eq_none hAbsent)]
    exact ⟨_, hSound, hFinds.insert_new hAbsent val⟩
  · cases replace with
    | true => exact ⟨_, hSound, hFinds.insert_old hNodup hKey val⟩
    | false =>
        have hSome : (found key).isSome = true := hFinds.isSome_iff.mpr
          (Blueprint.mem_keyClasses.mpr ⟨pair, Multiset.mem_cons_self .., hKey⟩)
        have hSame : bp.applyOp found (insertion false key val) = found := if_pos hSome
        rw [hSame]
        exact ⟨_, hSound, hFinds⟩

/-- An insertion that returns has its effect, and returns an iterator to the pair
that its key finds, or it fails. -/
theorem Stores.insertLoop (h : Stores maxLoad bucketSize bp table found)
    (hEq : Verstable.insertLoop maxLoad bucketSize memory allocator bp replace fuel table key val =
      some (table', itr)) :
    isEnd itr = false ∧
        Stores maxLoad bucketSize bp table' (bp.applyOp found (insertion replace key val)) ∧
        pairAt table' itr = bp.applyOp found (insertion replace key val) key ∨
      isEnd itr = true ∧
        Failed maxLoad bucketSize bp found ⟨allocator, insertion replace key val⟩ table table' := by
  obtain ⟨stored, hSound, hSized, hFinds⟩ := h
  rcases hSound.insertLoop_returned hSized hEq with
    ⟨hInserted, hSized'⟩ | ⟨hEnd, hAbsent, hShort⟩
  · obtain ⟨p, hAt, hKey⟩ := hInserted.pointsAt
    obtain ⟨stored', hSound', hFinds'⟩ := hInserted.exists_stored hFinds hSound.nodup
    exact Or.inl ⟨hAt.not_end, ⟨stored', hSound', hSized', hFinds'⟩,
      pairAt_eq hSound' hFinds' hAt hKey⟩
  · have hNone := hFinds.eq_none hAbsent
    have hNodup : (bp.keyClasses ((key, val) ::ₘ stored)).Nodup :=
      Blueprint.keyClasses_cons (key, val) stored ▸ Multiset.nodup_cons.mpr ⟨hAbsent, hSound.nodup⟩
    have hPut := (applyOp_insertion_of_none bp replace val hNone).symm ▸
      hFinds.insert_new hAbsent val
    refine Or.inr ⟨hEnd, ⟨_, 3, hPut, hNodup, ?_, Or.inl rfl⟩, Or.inr ⟨key, val, ?_, hNone⟩⟩
    · rw [Multiset.card_cons]
      exact hShort
    · cases replace with
      | true => exact Or.inl rfl
      | false => exact Or.inr rfl

end Insertion

theorem Stores.erase (h : Stores maxLoad bucketSize bp table found) {result : Table K V × Bool}
    (hEq : erase bp fuel table key = some result) :
    Stores maxLoad bucketSize bp result.1 (bp.remove found key) := by
  obtain ⟨stored, hSound, hSized, hFinds⟩ := h
  obtain ⟨table', erased, hReturns, hCases⟩ := hSound.erase_returns key
  obtain rfl := (steady_erase bp table key).eq_of_returnsTo hReturns hEq
  rcases hCases with ⟨_, pair, rest, rfl, hKey, hSound', hMask⟩ | ⟨_, hAbsent, rfl⟩
  · refine ⟨rest, hSound', hSized.of_le hMask ?_, hFinds.erase_stored hSound.nodup hKey⟩
    rw [hSound'.keyCount_eq, hSound.keyCount_eq, Multiset.card_cons]
    exact Nat.le_succ _
  · exact ⟨stored, hSound, hSized, hFinds.erase_absent hAbsent⟩

/-- What a call that returns did. -/
def Called (maxLoad : ℚ) (bucketSize : Nat) (bp : Blueprint K V) (found : K → Option (K × V))
    (c : Call K V) (table : Table K V) (done : Bool) (table' : Table K V) : Prop :=
  done = true ∧ Stores maxLoad bucketSize bp table' (bp.applyOp found c.op) ∨
    done = false ∧ Failed maxLoad bucketSize bp found c table table'

theorem Resized.called {c : Call K V} {size : Nat} {done : Bool}
    (h : Resized maxLoad bucketSize c.allocator bp table stored fuel size done table')
    (hSound : Sound bp table stored) (hFinds : bp.Finds stored found)
    (hSame : bp.applyOp found c.op = found) (hSize : size ≤ max stored.card (requested c.op)) :
    Called maxLoad bucketSize bp found c table done table' := by
  rcases h with ⟨hDone, hSound', hSized⟩ | ⟨hDone, hTable, k, hCount, hShort⟩
  · exact Or.inl ⟨hDone, stored, hSound', hSized, hSame.symm ▸ hFinds⟩
  · exact Or.inr ⟨hDone, ⟨stored, k, hSame.symm ▸ hFinds, hSound.nodup, hShort,
      Or.inr ⟨fuel, size, hSize, hCount⟩⟩, Or.inl hTable⟩

theorem Stores.inserted (h : Stores maxLoad bucketSize bp table found) (replace : Bool)
    {done : Bool} (hEq : (Verstable.insertLoop maxLoad bucketSize memory allocator bp replace fuel
      table key val).map (fun result => (!isEnd result.2, result.1)) = some (done, table')) :
    Called maxLoad bucketSize bp found ⟨allocator, insertion replace key val⟩ table done
      table' := by
  obtain ⟨⟨table₁, itr⟩, hInsert, hResult⟩ := Option.map_eq_some_iff.mp hEq
  obtain ⟨rfl, rfl⟩ := Prod.mk.injEq .. ▸ hResult
  rcases h.insertLoop hInsert with ⟨hEnd, hStores, _⟩ | ⟨hEnd, hFailed⟩
  · exact Or.inl ⟨by rw [hEnd]; rfl, hStores⟩
  · exact Or.inr ⟨by rw [hEnd]; rfl, hFailed⟩

/-- A call that returns has its effect on what is found, or it fails. -/
theorem Stores.call_returned (h : Stores maxLoad bucketSize bp table found) {c : Call K V}
    {done : Bool} (hEq : call maxLoad bucketSize memory bp fuel table c = some (done, table')) :
    Called maxLoad bucketSize bp found c table done table' := by
  have hStores := h
  obtain ⟨stored, hSound, hSized, hFinds⟩ := h
  obtain ⟨allocator, op⟩ := c
  cases op with
  | insert key val => exact hStores.inserted true hEq
  | getOrInsert key val => exact hStores.inserted false hEq
  | erase key =>
      obtain ⟨result, hErase, hResult⟩ := Option.map_eq_some_iff.mp hEq
      obtain ⟨rfl, rfl⟩ := Prod.mk.injEq .. ▸ hResult
      exact Or.inl ⟨rfl, hStores.erase hErase⟩
  | reserve size =>
      exact (hSound.reserve_returned hSized hEq).called hSound hFinds rfl (le_max_right ..)
  | shrink =>
      exact (hSound.shrink_returned hSized hEq).called hSound hFinds rfl
        (hSound.keyCount_eq.le.trans (le_max_left ..))
  | clear =>
      obtain ⟨rfl, rfl⟩ := Prod.mk.injEq .. ▸ Option.some.inj hEq
      exact Or.inl ⟨rfl, 0, hSound.clear, hSized.clear, Blueprint.Finds.empty⟩

theorem run_concat (fuel : Nat) (calls : List (Call K V)) (c : Call K V) :
    run maxLoad bucketSize memory bp fuel (calls ++ [c]) =
      (run maxLoad bucketSize memory bp fuel calls).bind fun state =>
        step maxLoad bucketSize memory bp fuel state c := by
  simp [run, List.foldlM_append]

/-- The calls before one that was made have succeeded. -/
theorem run_concat_succeeded {calls : List (Call K V)} {c : Call K V}
    (hEq : run maxLoad bucketSize memory bp fuel (calls ++ [c]) = some (true, table')) :
    ∃ table, run maxLoad bucketSize memory bp fuel calls = some (true, table) ∧
      call maxLoad bucketSize memory bp fuel table c = some (true, table') := by
  rw [run_concat] at hEq
  obtain ⟨⟨done, table⟩, hRun, hStep⟩ := Option.bind_eq_some_iff.mp hEq
  cases done with
  | true => exact ⟨table, hRun, hStep⟩
  | false => cases hStep

theorem run_append_succeeded {before after : List (Call K V)}
    (hEq : run maxLoad bucketSize memory bp fuel (before ++ after) = some (true, table')) :
    ∃ table, run maxLoad bucketSize memory bp fuel before = some (true, table) := by
  induction after using List.reverseRecOn generalizing table' with
  | nil => exact ⟨table', List.append_nil before ▸ hEq⟩
  | append_singleton after c ih =>
      rw [← List.append_assoc] at hEq
      obtain ⟨table₁, hRun, _⟩ := run_concat_succeeded hEq
      exact ih hRun

theorem mapOf_concat (bp : Blueprint K V) (calls : List (Call K V)) (c : Call K V) :
    bp.mapOf ((calls ++ [c]).map Call.op) = bp.applyOp (bp.mapOf (calls.map Call.op)) c.op := by
  rw [List.map_append, List.map_singleton, bp.mapOf_concat]

theorem run_returned {calls : List (Call K V)}
    (hEq : run maxLoad bucketSize memory bp fuel calls = some (true, table)) :
    Stores maxLoad bucketSize bp table (bp.mapOf (calls.map Call.op)) := by
  induction calls using List.reverseRecOn generalizing table with
  | nil =>
      obtain ⟨_, rfl⟩ := Prod.mk.injEq .. ▸ Option.some.inj hEq
      exact ⟨0, sound_init bp memory, sized_init maxLoad bucketSize memory, Blueprint.Finds.empty⟩
  | append_singleton calls c ih =>
      obtain ⟨table₁, hRun, hCall⟩ := run_concat_succeeded hEq
      rw [mapOf_concat]
      rcases (ih hRun).call_returned hCall with ⟨_, hStores⟩ | ⟨hDone, _⟩
      · exact hStores
      · cases hDone

/-- A lookup ends with the pair that its key finds. -/
theorem Sound.lookup_returns (h : Sound bp table stored) (hFinds : bp.Finds stored found)
    (key : K) :
    ∃ itr, ReturnsTo (fun fuel => get bp fuel table key) itr ∧ pairAt table itr = found key := by
  obtain ⟨itr, hReturns, ⟨p, hAt, hKey⟩ | ⟨hEnd, hAbsent⟩⟩ := h.get_returns key
  · exact ⟨itr, hReturns, pairAt_eq h hFinds hAt hKey⟩
  · exact ⟨itr, hReturns, (if_pos hEnd).trans (hFinds.eq_none hAbsent).symm⟩

/-- Every allocation up to a terabyte succeeds. -/
def terabyte : Allocator where
  malloc size := decide (size < 2 ^ 40)
  max _ h := (of_decide_eq_true h).trans (by decide)

/-- Two keys that share a home bucket, one of which is erased and inserted again. -/
def sample : List (Call (BitVec 32) Nat) :=
  [.insert 1 10, .insert 9 20, .getOrInsert 1 30, .reserve 20, .erase 1, .insert 1 11,
    .shrink].map fun op => ⟨terabyte, op⟩

theorem exists_sample : ∃ table, run (7 / 8) 16 (fun _ => (0, 0))
    (Blueprint.ofEq BitVec.toNat 0) 20 sample = some (true, table) := by
  have hDone : (run (7 / 8) 16 (fun _ => (0, 0)) (Blueprint.ofEq BitVec.toNat 0) 20 sample).map
      Prod.fst = some true := by decide +kernel
  obtain ⟨⟨done, table⟩, hRun, rfl⟩ := Option.map_eq_some_iff.mp hDone
  exact ⟨table, hRun⟩

end Calls

section Few

variable {found : K → Option (K × V)} {allocator : Allocator}

/-- The request fits if it is to reserve room. -/
def RequestFits (maxLoad : ℚ) (bucketSize : Nat) : MapOp K V → Prop
  | .reserve size => Fits maxLoad bucketSize size
  | _ => True

/-- A call on a table returns. -/
theorem Stores.call_returns (h : Stores maxLoad bucketSize bp table found)
    (hFirst : arraySize bucketSize vtMinNonzeroBucketCount < 2 ^ 64) (memory : Nat → K × V)
    {c : Call K V} (hFits : RequestFits maxLoad bucketSize c.op) :
    ∃ result, ReturnsTo (fun fuel => call maxLoad bucketSize memory bp fuel table c) result := by
  obtain ⟨stored, hSound, hSized, _⟩ := h
  obtain ⟨allocator, op⟩ := c
  cases op with
  | insert key val =>
      obtain ⟨result, hReturns⟩ :=
        hSound.insertLoop_returns hSized hFirst memory allocator true key val
      exact ⟨_, hReturns.map _⟩
  | getOrInsert key val =>
      obtain ⟨result, hReturns⟩ :=
        hSound.insertLoop_returns hSized hFirst memory allocator false key val
      exact ⟨_, hReturns.map _⟩
  | erase key =>
      obtain ⟨table', erased, hReturns, _⟩ := hSound.erase_returns key
      exact ⟨_, hReturns.map _⟩
  | reserve size => exact hSound.reserve_returns memory allocator hFits
  | shrink => exact hSound.shrink_returns hSized hFirst memory allocator
  | clear => exact ⟨_, ReturnsTo.pure _⟩

/-- Every array with up to `2 ^ m` buckets is allocated, which are enough for this
many keys. -/
structure Ample (maxLoad : ℚ) (bucketSize : Nat) (allocator : Allocator) (count m : Nat) : Prop where
  low : 3 ≤ m
  enough : (count : ℚ) ≤ (2 ^ m : Nat) * maxLoad
  fits : arraySize bucketSize (2 ^ m) < 2 ^ 64
  granted : ∀ j ≤ m, allocator.malloc (totalAllocSize bucketSize (2 ^ j)) = true

/-- The call gets what it asks for, with up to 2047 keys and those that it reserves room for. -/
def Call.Supplied (maxLoad : ℚ) (bucketSize : Nat) (c : Call K V) : Prop :=
  ∃ m, Ample maxLoad bucketSize c.allocator (max 2047 (requested c.op)) m

/-- No array is missed for up to 2047 keys, which no table of the largest size refuses. -/
theorem Ample.not_short {count m n j : Nat} (h : Ample maxLoad bucketSize allocator count m)
    (hLow : 0 < maxLoad) (hHigh : maxLoad ≤ 1) (hn : n ≤ count) (hFew : n ≤ 2047) (hj : j ≤ m) :
    ¬ Short maxLoad bucketSize allocator bp (2 ^ j) n := by
  rintro ⟨_, hFailed, rfl | ⟨k, rfl, hStuck⟩⟩
  · exact absurd (hFailed.symm.trans (h.granted j hj)) Bool.false_ne_true
  · rcases Nat.lt_or_ge k m with hLt | hGe
    · exact absurd (hFailed.symm.trans (h.granted _ hLt)) Bool.false_ne_true
    · have hPow : 2 ^ m ≤ 2 ^ k := Nat.pow_le_pow_right Nat.two_pos hGe
      have hEight : 2 ^ 3 ≤ 2 ^ m := Nat.pow_le_pow_right Nat.two_pos h.low
      have hTop : 2 ^ k - 1 + 1 = 2 ^ k := Nat.sub_add_cancel (Nat.two_pow_pos k)
      refine not_stuck hHigh (by omega) ?_ hFew hStuck
      have hCount : (n : ℚ) ≤ count := by exact_mod_cast hn
      have hRoom : ((2 ^ m : Nat) : ℚ) ≤ (2 ^ k : Nat) := by exact_mod_cast hPow
      rw [hTop]
      exact hCount.trans (h.enough.trans (mul_le_mul_of_nonneg_right hRoom hLow.le))

/-- A call that gets what it asks for does not fail. -/
theorem Failed.elim {c : Call K V} {table' : Table K V}
    (h : Failed maxLoad bucketSize bp found c table table') (hLow : 0 < maxLoad)
    (hHigh : maxLoad ≤ 1) (hSupplied : c.Supplied maxLoad bucketSize)
    (hFew : ∀ stored, bp.Finds stored (bp.applyOp found c.op) → (bp.keyClasses stored).Nodup →
      stored.card ≤ 2047) : False := by
  obtain ⟨m, hAmple⟩ := hSupplied
  obtain ⟨stored, j, hFinds, hNodup, hShort, hFirst⟩ := h.short
  have hCard := hFew stored hFinds hNodup
  refine hAmple.not_short hLow hHigh (hCard.trans (le_max_left ..)) hCard ?_ hShort
  rcases hFirst with hEight | ⟨fuel, size, hSize, hCount⟩
  · exact (Nat.pow_right_injective (le_refl 2) hEight).le.trans hAmple.low
  · have hm := lt_of_arraySize_two_pow hAmple.fits
    refine minBucketCountForSize_le hAmple.low hm (le_trans ?_ hAmple.enough) hCount
    exact_mod_cast hSize.trans (max_le_max_right _ hCard)

/-- Every run returns, under any hash function and whatever allocations fail. -/
theorem run_returns (hFirst : arraySize bucketSize vtMinNonzeroBucketCount < 2 ^ 64)
    (memory : Nat → K × V) (bp : Blueprint K V) {calls : List (Call K V)}
    (hFits : ∀ c ∈ calls, RequestFits maxLoad bucketSize c.op) :
    ∃ done table, ReturnsTo (fun fuel => run maxLoad bucketSize memory bp fuel calls)
      (done, table) := by
  induction calls using List.reverseRecOn with
  | nil => exact ⟨true, _, ReturnsTo.pure _⟩
  | append_singleton calls c ih =>
      obtain ⟨hFits, hLast⟩ := List.forall_mem_append.mp hFits
      obtain ⟨done, table, hRun⟩ := ih hFits
      simp only [run_concat]
      cases done with
      | false => exact ⟨false, table, hRun.bind (ReturnsTo.pure _)⟩
      | true =>
          obtain ⟨fuel, hReturned⟩ := hRun.exists_fuel
          obtain ⟨⟨done, table'⟩, hCall⟩ := (run_returned hReturned).call_returns hFirst memory
            (hLast c (List.mem_singleton_self c))
          exact ⟨done, table', hRun.bind hCall⟩

/-- With at most 2047 keys at a time no call fails that gets what it asks for. -/
theorem run_succeeded (hLow : 0 < maxLoad) (hHigh : maxLoad ≤ 1) {calls : List (Call K V)}
    (hSupplied : ∀ c ∈ calls, c.Supplied maxLoad bucketSize)
    (hFew : bp.AtMost bp.applyOp 2047 (calls.map Call.op)) {fuel : Nat} {done : Bool}
    (hEq : run maxLoad bucketSize memory bp fuel calls = some (done, table)) : done = true := by
  induction calls using List.reverseRecOn generalizing done table with
  | nil => exact (congrArg Prod.fst (Option.some.inj hEq)).symm
  | append_singleton calls c ih =>
      obtain ⟨hSupplied, hLast⟩ := List.forall_mem_append.mp hSupplied
      have hBefore := hFew
      rw [List.map_append] at hBefore
      rw [run_concat] at hEq
      obtain ⟨⟨before, table₁⟩, hRun, hStep⟩ := Option.bind_eq_some_iff.mp hEq
      obtain rfl := ih hSupplied hBefore.left hRun
      rcases (run_returned hRun).call_returned hStep with ⟨hDone, _⟩ | ⟨_, hFailed⟩
      · exact hDone
      · refine (hFailed.elim hLow hHigh (hLast c (List.mem_singleton_self c))
          fun stored hFinds hNodup => ?_).elim
        rw [← mapOf_concat] at hFinds
        exact hFew.card_le hFinds hNodup

/-- Every run returns, under any hash function and whatever allocations fail. It
succeeds if its calls get what they ask for, with at most 2047 keys at a time. -/
theorem verstable_returns (hFirst : arraySize bucketSize vtMinNonzeroBucketCount < 2 ^ 64)
    (memory : Nat → K × V) (bp : Blueprint K V) {calls : List (Call K V)}
    (hFits : ∀ c ∈ calls, RequestFits maxLoad bucketSize c.op) :
    ∃ done table, ReturnsTo (fun fuel => run maxLoad bucketSize memory bp fuel calls)
        (done, table) ∧
      (0 < maxLoad → maxLoad ≤ 1 → (∀ c ∈ calls, c.Supplied maxLoad bucketSize) →
        bp.AtMost bp.applyOp 2047 (calls.map Call.op) → done = true) := by
  obtain ⟨done, table, hRun⟩ := run_returns hFirst memory bp hFits
  obtain ⟨fuel, hReturned⟩ := hRun.exists_fuel
  exact ⟨done, table, hRun, fun hLow hHigh hSupplied hFew =>
    run_succeeded hLow hHigh hSupplied hFew hReturned⟩

theorem requestFits_sample : ∀ c ∈ sample, RequestFits (7 / 8) 16 c.op := by
  have hReserve : Fits (7 / 8) 16 20 := ⟨5, by decide, by norm_num, by decide⟩
  simp [sample, RequestFits, hReserve]

/-- Arrays of 4096 buckets are enough for 2047 keys. -/
theorem ample_terabyte : Ample (7 / 8) 16 terabyte 2047 12 :=
  ⟨by decide, by norm_num, by decide, by decide⟩

theorem supplied_sample : ∀ c ∈ sample, c.Supplied (7 / 8) 16 := by
  have hSupplied : ∃ m, Ample (7 / 8) 16 terabyte 2047 m := ⟨12, ample_terabyte⟩
  simp [sample, Call.Supplied, requested, hSupplied]

theorem verstable_returns_sample : ∃ table, ReturnsTo (fun fuel =>
    run (7 / 8) 16 (fun _ => (0, 0)) (Blueprint.ofEq BitVec.toNat 0) fuel sample) (true, table) := by
  obtain ⟨done, table, hRun, hDone⟩ := verstable_returns (by decide) (fun _ => (0, 0))
    (Blueprint.ofEq BitVec.toNat 0) requestFits_sample
  obtain rfl := hDone (by norm_num) (by norm_num) supplied_sample
    (Blueprint.AtMost.of_length (Blueprint.applyOp_addsOne _) (by decide))
  exact ⟨table, hRun⟩

/-- No more than 2047 keys share a home bucket. -/
theorem Sound.card_home_le (h : Sound bp table stored)
    (hHome : ∀ pair ∈ stored, ∀ pair' ∈ stored,
      table.homeBucket bp pair.1 = table.homeBucket bp pair'.1) : stored.card ≤ 2047 := by
  obtain ⟨disp, hLinked⟩ := h.linked
  have hMem {p : Nat} (hp : p ∈ (Finset.range (table.bucketsMask + 1)).filter
      fun p => (slots table p).isLive = true) : p ∈ table.occupied := by
    obtain ⟨hRange, hLive⟩ := Finset.mem_filter.mp hp
    refine ⟨Nat.le_of_lt_succ (Finset.mem_range.mp hRange), fun hEmpty => ?_⟩
    rw [slots_eq_empty_iff.mpr hEmpty] at hLive
    cases hLive
  have hHomes {p q : Nat} (hp : p ∈ table.occupied) (hq : q ∈ table.occupied) :
      table.homeAt bp p = table.homeAt bp q :=
    hHome _ (h.mem_stored.mpr ⟨p, hp, rfl⟩) _ (h.mem_stored.mpr ⟨q, hq, rfl⟩)
  rw [← h.contents_eq, ← card_filter_live, ← Finset.card_range 2047]
  refine Finset.card_le_card_of_injOn disp (fun p hp => ?_) fun p hp q hq hSame => ?_
  · exact Finset.mem_coe.mpr (Finset.mem_range.mpr (hLinked.chained.inside p (hMem hp)))
  · exact hLinked.chained.eq_of_disp (hMem hq) (hMem hp) (hHomes (hMem hp) (hMem hq)) hSame

/-- Under a hash function that tells no keys apart, exactly the runs with at most
2047 keys at a time succeed. With one key more a call asks for larger and larger
arrays, and fails with the first one that it does not get. -/
theorem verstable_succeeds_iff_of_constant
    (hFirst : arraySize bucketSize vtMinNonzeroBucketCount < 2 ^ 64) (hLow : 0 < maxLoad)
    (hHigh : maxLoad ≤ 1) (memory : Nat → K × V) {bp : Blueprint K V}
    (hHash : ∀ k k', bp.hashKey k = bp.hashKey k') {calls : List (Call K V)}
    (hFits : ∀ c ∈ calls, RequestFits maxLoad bucketSize c.op)
    (hSupplied : ∀ c ∈ calls, c.Supplied maxLoad bucketSize) :
    ∃ done table, ReturnsTo (fun fuel => run maxLoad bucketSize memory bp fuel calls)
        (done, table) ∧
      (done = true ↔ bp.AtMost bp.applyOp 2047 (calls.map Call.op)) := by
  obtain ⟨done, table, hRun⟩ := run_returns hFirst memory bp hFits
  obtain ⟨fuel, hReturned⟩ := hRun.exists_fuel
  refine ⟨done, table, hRun, fun hDone => ?_, fun hFew =>
    run_succeeded hLow hHigh hSupplied hFew hReturned⟩
  rw [hDone] at hReturned
  intro before after hSplit order hOrder
  obtain ⟨calls₁, calls₂, rfl, rfl, rfl⟩ := List.map_eq_append_iff.mp hSplit
  obtain ⟨table₁, hBefore⟩ := run_append_succeeded hReturned
  obtain ⟨stored, hSound, _, hFinds⟩ := run_returned hBefore
  rw [hOrder.length_eq hFinds hSound.nodup]
  refine hSound.card_home_le fun pair _ pair' _ => ?_
  rw [Table.homeBucket, Table.homeBucket, hashFn, hashFn, hHash]

/-- Insertions of 2048 keys. -/
def insertions : List (Call Nat Nat) :=
  (List.range 2048).map fun key => ⟨terabyte, .insert key 0⟩

/-- The last of 2048 keys of one hash code is refused. -/
theorem verstable_fails_of_constant : ∃ table, ReturnsTo (fun fuel =>
    run (7 / 8) 16 (fun _ => (0, 0)) (Blueprint.ofEq (fun _ : Nat => 0) 0) fuel insertions)
      (false, table) := by
  have hHash (k k' : Nat) : (Blueprint.ofEq (fun _ : Nat => 0) 0).hashKey k =
      (Blueprint.ofEq (fun _ : Nat => 0) 0).hashKey k' := rfl
  have hFits : ∀ c ∈ insertions, RequestFits (7 / 8) 16 c.op :=
    List.forall_mem_map.mpr fun _ _ => trivial
  have hSupplied : ∀ c ∈ insertions, c.Supplied (7 / 8) 16 :=
    List.forall_mem_map.mpr fun _ _ => ⟨12, ample_terabyte⟩
  obtain ⟨done, table, hRun, hDone⟩ := verstable_succeeds_iff_of_constant (by decide)
    (by norm_num) (by norm_num) (fun _ => (0, 0)) hHash hFits hSupplied
  cases done with
  | false => exact ⟨table, hRun⟩
  | true =>
      have hFew := hDone.mp rfl
      have hDistinct : (List.range 2048).Pairwise fun k k' : Nat =>
          (Blueprint.ofEq (fun _ : Nat => 0) 0).cmprKeys k k' = false :=
        List.nodup_range.imp fun hNe => decide_eq_false hNe
      have hLists := Blueprint.lists_insertions _ 0 hDistinct
      rw [insertions, List.map_map] at hFew
      have hLength := hFew _ [] (List.append_nil _).symm _ hLists
      rw [List.length_map, List.length_range] at hLength
      omega

end Few

end HashBench.Verstable
