import HashBench.Khash.KickOut

/-! The calls of khash on a sound table. A call that returns leaves a sound
table. Whether it returns without a fault is decided by the resize alone. -/
namespace HashBench.Khash

open Search Triangular OpenAddressing Memory

variable {K V : Type}

section Sizes

theorem roundBuckets_pred {k : Nat} (hLow : 2 ≤ k) (hHigh : k ≤ 31) :
    roundBuckets (khintPred (2 ^ k)) = 2 ^ k := by
  have hAll : ∀ k < 32, 2 ≤ k → roundBuckets (khintPred (2 ^ k)) = 2 ^ k := by decide
  exact hAll k (by omega) hLow

theorem roundBuckets_succ {k : Nat} (hLow : 2 ≤ k) (hHigh : k ≤ 30) :
    roundBuckets (khintSucc (2 ^ k)) = 2 ^ (k + 1) := by
  have hAll : ∀ k < 31, 2 ≤ k → roundBuckets (khintSucc (2 ^ k)) = 2 ^ (k + 1) := by decide
  exact hAll k (by omega) hLow

/-- The largest table asks for more buckets than a `khint_t` counts, which
rounds to the fewest. -/
theorem roundBuckets_succ_last : roundBuckets (khintSucc (2 ^ 31)) = 2 ^ 2 := by decide

theorem roundBuckets_buckets {n m : Nat} (h : Buckets n) (hm : m = khintPred n ∨ m = khintSucc n) :
    ∃ k, 2 ≤ k ∧ k ≤ 31 ∧ roundBuckets m = 2 ^ k := by
  rcases h with rfl | ⟨k, hLow, hHigh, rfl⟩
  · refine ⟨2, le_rfl, by decide, ?_⟩
    rcases hm with rfl | rfl <;> decide
  · rcases hm with rfl | rfl
    · exact ⟨k, hLow, hHigh, roundBuckets_pred hLow hHigh⟩
    · rcases Nat.lt_or_eq_of_le hHigh with hLt | rfl
      · exact ⟨k + 1, by omega, hLt, roundBuckets_succ hLow (by omega)⟩
      · exact ⟨2, le_rfl, by decide, roundBuckets_succ_last⟩

theorem requested_cases (h : Table K V) :
    requested h = khintPred h.nBuckets ∨ requested h = khintSucc h.nBuckets := by
  unfold requested
  split_ifs
  · exact Or.inl rfl
  · exact Or.inr rfl

end Sizes

namespace Sound

variable {maxLoadFactor : ℚ} {bp : Blueprint K V} {h : Table K V} {stored : Multiset (K × V)}

/-- The state in which the kick-out process starts. -/
theorem rehashing (hSound : Sound maxLoadFactor bp h stored) (n : Nat) :
    Rehashing bp h.nBuckets n ⟨h.flags, ⟨n, fun _ => Flag.fresh⟩,
      if h.nBuckets < n then h.keys.realloc n else h.keys,
      if h.nBuckets < n then h.vals.realloc n else h.vals⟩ 0 stored := by
  have hCell {S : Type} (b : Buffer S) :
      (if h.nBuckets < n then b.realloc n else b).cell = b.cell := by split_ifs <;> rfl
  have hMax {S : Type} (b : Buffer S) (hb : b.size = h.nBuckets) :
      (if h.nBuckets < n then b.realloc n else b).size = max h.nBuckets n := by
    split_ifs with hLt
    · exact (max_eq_right hLt.le).symm
    · rw [hb, max_eq_left (Nat.le_of_not_lt hLt)]
  refine ⟨hSound.flags_size, rfl, hMax _ hSound.keys_size, hMax _ hSound.vals_size,
    ⟨fun p _ e hLive => ?_, fun p _ hDeleted => ?_⟩, fun p => rfl, fun p _ hNe => absurd rfl hNe, ?_⟩
  · cases hLive
  · cases hDeleted
  · have hOld (flags : Buffer Flag) : oldSlots ⟨h.flags, flags,
        if h.nBuckets < n then h.keys.realloc n else h.keys,
        if h.nBuckets < n then h.vals.realloc n else h.vals⟩ = slots h := by
      funext p
      simp only [oldSlots, slots, view, hCell]
    rw [hOld, hSound.counted.contents_eq, add_zero]
    exact add_eq_left.mpr (total_eq_zero _ fun p _ => rfl)

/-- A resize that returned has kept the pairs, whether or not it was refused. -/
theorem khResize_returned (hSound : Sound maxLoadFactor bp h stored) {m k : Nat} (hLow : 2 ≤ k)
    (hHigh : k ≤ 31) (hm : roundBuckets m = 2 ^ k) {fuel : Nat} {r : Except Fault (Table K V)}
    (hRun : (khResize maxLoadFactor bp fuel h m).run = some r) :
    ∃ h', r = .ok h' ∧ Sound maxLoadFactor bp h' stored ∧
      (Refuses maxLoadFactor h m ∧ h' = h ∨
        ¬ Refuses maxLoadFactor h m ∧ h'.nBuckets = roundBuckets m ∧ h'.nOccupied = h.size) := by
  unfold khResize at hRun
  by_cases hRefuses : Refuses maxLoadFactor h m
  · rw [if_pos hRefuses] at hRun
    cases hRun
    exact ⟨h, rfl, hSound, Or.inl ⟨hRefuses, rfl⟩⟩
  rw [if_neg hRefuses] at hRun
  have hStart := hSound.rehashing (roundBuckets m)
  obtain ⟨_, hError, _⟩ | ⟨st, hLoop, hRest⟩ := run_bind_eq_some.mp hRun
  · obtain ⟨_, hOk, _⟩ := hStart.rehashTo_returned hm le_rfl hError
    cases hOk
  · obtain ⟨_, hOk, hDone, hPassed⟩ := hStart.rehashTo_returned hm le_rfl hLoop
    cases hOk
    cases hRest
    have hCell {S : Type} (b : Buffer S) :
        (if h.nBuckets > roundBuckets m then b.realloc (roundBuckets m) else b).cell = b.cell := by
      split_ifs <;> rfl
    have hMin {S : Type} (b : Buffer S) (hb : b.size = max h.nBuckets (roundBuckets m)) :
        (if h.nBuckets > roundBuckets m then b.realloc (roundBuckets m) else b).size =
          roundBuckets m := by
      split_ifs with hGt
      · rfl
      · rw [hb, max_eq_right (Nat.le_of_not_lt hGt)]
    have hContents : contents (newSlots st) (roundBuckets m) = stored := by
      rw [← hDone.kept, contents, contents, total_eq_zero _ hPassed, zero_add, zero_add]
    have hSlots : view st.newFlags
        (if h.nBuckets > roundBuckets m then st.keys.realloc (roundBuckets m) else st.keys)
        (if h.nBuckets > roundBuckets m then st.vals.realloc (roundBuckets m) else st.vals) =
          newSlots st := by
      funext p
      simp only [newSlots, view, hCell]
    refine ⟨_, rfl, ⟨Or.inr ⟨k, hLow, hHigh, hm⟩, hDone.newFlags_size, hMin _ hDone.keys_size,
      hMin _ hDone.vals_size, ?_, hSound.size_eq, hSound.nodup, rfl⟩,
      Or.inr ⟨hRefuses, rfl, rfl⟩⟩
    simp only [slots, hSlots, hSound.size_eq]
    exact .of_clean hDone.clean hContents

/-- A resize ends if it is refused or makes a bucket for every pair. -/
theorem khResize_returns (hSound : Sound maxLoadFactor bp h stored) {m k : Nat}
    (hm : roundBuckets m = 2 ^ k)
    (hRoom : Refuses maxLoadFactor h m ∨ h.size ≤ roundBuckets m) :
    Returns fun fuel => khResize maxLoadFactor bp fuel h m := by
  unfold khResize
  by_cases hRefuses : Refuses maxLoadFactor h m
  · simp only [if_pos hRefuses]
    exact .pure h
  · simp only [if_neg hRefuses]
    have hFits := hRoom.resolve_left hRefuses
    rw [hSound.size_eq] at hFits
    exact ((hSound.rehashing (roundBuckets m)).rehashTo_returns hm hFits le_rfl).andThen
      fun _ _ => .pure _

end Sound

/-- The key is absent and its probe meets only pairs before an empty bucket. -/
def ClaimsEmpty (bp : Blueprint K V) (h : Table K V) (key : K) : Prop :=
  ∃ j, slots h (probeSeq bp h key j) = .empty ∧
    ∀ i < j, ∃ e, slots h (probeSeq bp h key i) = .live e ∧ bp.cmprKeys e.1 key = false

/-- Where an insertion puts a key: at the pair of the key, in a bucket without a
pair on its probe, or, if there is none, over the pair of another key. -/
inductive Located (bp : Blueprint K V) (h : Table K V) (stored : Multiset (K × V)) (key : K)
    (x : Nat) : Prop where
  | found (e : K × V) (hMem : e ∈ stored) (hLive : slots h x = .live e)
      (hEq : bp.cmprKeys e.1 key = true)
  | free (hAbsent : ∀ e ∈ stored, bp.cmprKeys e.1 key = false) (hFree : (slots h x).entries = 0)
      (hReach : Reach (slots h) (probeSeq bp h key) x)
      (hClaims : slots h x = .empty ↔ ClaimsEmpty bp h key)
  | full (hAbsent : ∀ e ∈ stored, bp.cmprKeys e.1 key = false)
      (hFull : ∀ p < h.nBuckets, ∃ e, slots h p = .live e)

namespace Sound

variable {maxLoadFactor : ℚ} {bp : Blueprint K V} {h : Table K V} {stored : Multiset (K × V)}
  {key : K}

/-- What a probe loop notes: the last tombstone it has passed. -/
theorem noted (hSound : Sound maxLoadFactor bp h stored) (hPos : h.nBuckets ≠ 0) {j : Nat}
    (hBefore : ∀ i < j, ((slots h (probeSeq bp h key i)).stops fun e => bp.cmprKeys e.1 key) = false) :
    (trail (noteLast fun p => (h.flags.cell p).isdel) (probeSeq bp h key) j h.nBuckets = h.nBuckets ∧
        ∀ i < j, ∃ e, slots h (probeSeq bp h key i) = .live e ∧ bp.cmprKeys e.1 key = false) ∨
      ∃ i < j, slots h (probeSeq bp h key i) = .deleted ∧
        trail (noteLast fun p => (h.flags.cell p).isdel) (probeSeq bp h key) j h.nBuckets =
          probeSeq bp h key i ∧ probeSeq bp h key i ≠ h.nBuckets := by
  rcases trail_noteLast (fun p => (h.flags.cell p).isdel) (probeSeq bp h key) j h.nBuckets with
    ⟨hNone, hUnmarked⟩ | ⟨i, hi, hMarked, hNoted⟩
  · refine Or.inl ⟨hNone, fun i hi => ?_⟩
    have hPassed := hBefore i hi
    cases hSlot : slots h (probeSeq bp h key i) with
    | empty => simp [hSlot] at hPassed
    | deleted => exact absurd (slotOf_eq_deleted_iff.mp hSlot).2 (Bool.eq_false_iff.mp (hUnmarked i hi))
    | live e => exact ⟨e, rfl, by simpa [hSlot] using hPassed⟩
  · have hNe := ne_empty_of_stops_eq_false (hBefore i hi)
    refine Or.inr ⟨i, hi, slotOf_eq_deleted_iff.mpr ⟨?_, hMarked⟩, hNoted,
      Nat.ne_of_lt (hSound.probe_lt hPos ..)⟩
    exact Bool.eq_false_iff.mpr fun hEmpty => hNe (slotOf_eq_empty_iff.mpr hEmpty)

/-- A tombstone that the probe passes takes a key that is not stored. -/
theorem located_hole {i j : Nat} (hi : i < j)
    (hBefore : ∀ l < j, ((slots h (probeSeq bp h key l)).stops fun e => bp.cmprKeys e.1 key) = false)
    (hDeleted : slots h (probeSeq bp h key i) = .deleted)
    (hAbsent : ∀ e ∈ stored, bp.cmprKeys e.1 key = false) :
    Located bp h stored key (probeSeq bp h key i) := by
  refine .free hAbsent (by simp [hDeleted]) ⟨i, rfl, fun l hl => ?_⟩
    (iff_of_false (by simp [hDeleted]) ?_)
  · exact ne_empty_of_stops_eq_false (hBefore l (hl.trans hi))
  · rintro ⟨j', hEmpty, hLive⟩
    rcases Nat.lt_or_ge i j' with hLt | hGe
    · obtain ⟨e, hSlot, _⟩ := hLive i hLt
      rw [hDeleted] at hSlot
      cases hSlot
    · exact ne_empty_of_stops_eq_false (hBefore j' (Nat.lt_of_le_of_lt hGe hi)) hEmpty

/-- The bucket that an insertion decides on. -/
theorem locate_returned (hSound : Sound maxLoadFactor bp h stored) (hPos : h.nBuckets ≠ 0)
    {fuel : Nat} {r : Except Fault Nat} (hRun : (locate bp fuel h key).run = some r) :
    ∃ x, r = .ok x ∧ x < h.nBuckets ∧ Located bp h stored key x := by
  have hLt (j : Nat) : probeSeq bp h key j < h.nBuckets := hSound.probe_lt hPos ..
  have hRead (j : Nat) := Buffer.read_of_lt Fault.flags (hSound.flags_size ▸ hLt j)
  unfold locate at hRun
  simp only [hRead, check_bind] at hRun
  cases hFirst : (h.flags.cell (probeSeq bp h key 0)).isempty with
  | true =>
      have hEmpty : slots h (probeSeq bp h key 0) = .empty := slotOf_eq_empty_iff.mpr hFirst
      have hNone {P : Nat → Prop} : ∀ i < 0, P i := fun i hi => absurd hi (Nat.not_lt_zero i)
      rw [hFirst, if_pos rfl] at hRun
      cases hRun
      exact ⟨_, rfl, hLt 0, .free (hSound.absent_of_empty hNone hEmpty) (by simp [hEmpty])
        ⟨0, rfl, hNone⟩ (iff_of_true hEmpty ⟨0, hEmpty, hNone⟩)⟩
  | false =>
      rw [hFirst, if_neg Bool.false_ne_true] at hRun
      obtain ⟨_, hError, _⟩ | ⟨_, hProbe, hRest⟩ := run_bind_eq_some.mp hRun
      · obtain ⟨_, hOk, _⟩ := hSound.probeFor_returned hPos hError
        cases hOk
      obtain ⟨j, hOk, hBefore, hEnd⟩ := hSound.probeFor_returned hPos hProbe
      cases hOk
      have hNoted := hSound.noted hPos hBefore
      cases hEnd with
      | found e hNot hMem hLive hEq =>
          have hFull := (slotOf_eq_live_iff.mp hLive).1
          simp only [Flag.iseither, Bool.or_eq_false_iff] at hFull
          refine ⟨_, ?_, hLt j, .found e hMem hLive hEq⟩
          simpa [hNot, hRead, hFull.1] using hRest.symm
      | missed hNot hEmpty hAbsent =>
          have hFlag := slotOf_eq_empty_iff.mp hEmpty
          rcases hNoted with ⟨hNone, hLive⟩ | ⟨i, hi, hDeleted, hSite, hNe⟩
          · refine ⟨_, ?_, hLt j, .free hAbsent (by simp [hEmpty])
              ⟨j, rfl, fun l hl => ne_empty_of_stops_eq_false (hBefore l hl)⟩
              (iff_of_true hEmpty ⟨j, hEmpty, hLive⟩)⟩
            simpa [hNot, hRead, hFlag, hNone] using hRest.symm
          · refine ⟨_, ?_, hLt i, located_hole hi hBefore hDeleted hAbsent⟩
            simpa [hNot, hRead, hFlag, hSite, hNe] using hRest.symm
      | full hBack hFull hAbsent =>
          rcases hNoted with ⟨hNone, hLive⟩ | ⟨i, hi, hDeleted, hSite, hNe⟩
          · have hNotEmpty : (h.flags.cell (probeSeq bp h key j)).isempty = false :=
              Bool.eq_false_iff.mpr fun hFlag => hFull _ (hLt j) (slotOf_eq_empty_iff.mpr hFlag)
            refine ⟨_, ?_, hLt j, .full hAbsent fun p hp => ?_⟩
            · simpa [hBack, hRead, hNone, hNotEmpty] using hRest.symm
            · obtain ⟨i, hi, rfl⟩ := hSound.exists_probeSeq hBack hp
              obtain ⟨e, hSlot, _⟩ := hLive i hi
              exact ⟨e, hSlot⟩
          · refine ⟨_, ?_, hLt i, located_hole hi hBefore hDeleted hAbsent⟩
            simpa [hBack, hRead, hSite, hNe] using hRest.symm

/-- In a table without buckets there is none to read. -/
theorem read_first (hSound : Sound maxLoadFactor bp h stored) (hZero : h.nBuckets = 0) (key : K) :
    h.flags.read Fault.flags (probeSeq bp h key 0) = .error .flags :=
  Buffer.read_of_ge _ (by rw [hSound.flags_size, hZero]; exact Nat.zero_le _)

theorem locate_returns (hSound : Sound maxLoadFactor bp h stored) (key : K) :
    Returns fun fuel => locate bp fuel h key := by
  unfold locate
  refine (Returns.mk _).andThen fun first hFirst => ?_
  have hPos : h.nBuckets ≠ 0 := fun hZero => by
    rw [hSound.read_first hZero] at hFirst
    cases hFirst.exists_fuel.choose_spec
  split_ifs with hEmpty
  · exact .pure _
  · refine (hSound.probeFor_returns hPos _ _ key).andThen fun found _ => ?_
    by_cases hSite : (if found.2.1 = true then found.2.2 else h.nBuckets) = h.nBuckets
    · simp only [if_pos hSite]
      exact (Returns.mk _).andThen fun _ _ => .pure _
    · simp only [if_neg hSite]
      exact .pure _

theorem khintSucc_of_lt {n : Nat} (h : n < 2 ^ 32 - 1) : khintSucc n = n + 1 :=
  Nat.mod_eq_of_lt (by omega)

/-- The bucket of a pair gets the new value, whatever key the pair has. -/
theorem assign (hSound : Sound maxLoadFactor bp h stored) {x : Nat} (hx : x < h.nBuckets)
    {e : K × V} (hLive : slots h x = .live e) (val : V) :
    ∃ stored', Sound maxLoadFactor bp { h with vals := h.vals.set x val } stored' ∧
      classes bp stored' = classes bp stored := by
  obtain ⟨rest, rfl⟩ := Multiset.exists_cons_of_mem (hSound.counted.mem_stored.mpr ⟨x, hx, hLive⟩)
  have hSeq : slotSeq bp (khintPred h.nBuckets) (e.1, val) = slotSeq bp (khintPred h.nBuckets) e :=
    rfl
  have hCounted := hSound.counted.assign hx hLive hSeq
  have hClasses : classes bp ((e.1, val) ::ₘ rest) = classes bp (e ::ₘ rest) := by simp
  refine ⟨(e.1, val) ::ₘ rest, ⟨hSound.buckets, hSound.flags_size, hSound.keys_size,
    hSound.vals_size, ?_, ?_, hClasses ▸ hSound.nodup, hSound.upperBound_eq⟩, hClasses⟩
  · rw [slots, view_set_vals hLive]
    exact hCounted
  · exact hSound.size_eq.trans (by simp)

/-- The table after a key is stored in a bucket without a pair. -/
def storedAt (h : Table K V) (key : K) (x count : Nat) : Table K V :=
  { h with
    size := khintSucc h.size
    nOccupied := count
    flags := h.flags.set x Flag.setIsbothFalse
    keys := h.keys.set x key }

theorem store_eq_storedAt (hSound : Sound maxLoadFactor bp h stored) {x : Nat}
    (hx : x < h.nBuckets) (hFree : (slots h x).entries = 0) (key : K) :
    ∃ count ret, Khash.store h key x = .ok (storedAt h key x count, ret) ∧
      count + (slots h x).filled = h.nOccupied + 1 := by
  have hFlags : x < h.flags.size := hSound.flags_size ▸ hx
  have hKeys : x < h.keys.size := hSound.keys_size ▸ hx
  have hCount := hSound.filled_le
  have hTop := hSound.nBuckets_le
  simp only [Khash.store, Buffer.read_of_lt Fault.flags hFlags,
    Buffer.write_of_lt Fault.flags hFlags, Buffer.write_of_lt Fault.keys hKeys]
  cases hSlot : slots h x with
  | live e => simp [hSlot] at hFree
  | empty =>
      have hFlag := slotOf_eq_empty_iff.mp hSlot
      refine ⟨khintSucc h.nOccupied, 1, ?_, khintSucc_of_lt (by omega)⟩
      simp [storedAt, hFlag, bind, Except.bind, pure, Except.pure]
  | deleted =>
      have hFlag := slotOf_eq_deleted_iff.mp hSlot
      refine ⟨h.nOccupied, 2, ?_, rfl⟩
      simp [storedAt, hFlag, bind, Except.bind, pure, Except.pure]

/-- The end of an insertion, at the bucket decided on. -/
theorem store (hSound : Sound maxLoadFactor bp h stored) {x : Nat} (hx : x < h.nBuckets)
    (hLocated : Located bp h stored key x) (val : V) :
    ∃ h' ret stored', Khash.store h key x = .ok (h', ret) ∧ h'.vals = h.vals ∧
      Sound maxLoadFactor bp { h' with vals := h'.vals.set x val } stored' ∧
      h'.nBuckets = h.nBuckets ∧ h'.upperBound = h.upperBound ∧
      h'.nOccupied + (slots h x).filled = h.nOccupied + 1 ∧
      (classes bp stored' = classes bp stored ∧
          (bp.cls key ∈ classes bp stored ∨ h.size = h.nBuckets) ∨
        bp.cls key ∉ classes bp stored ∧
          classes bp stored' = bp.cls key ::ₘ classes bp stored) := by
  have hFlags : x < h.flags.size := hSound.flags_size ▸ hx
  have hLive {e : K × V} (hSlot : slots h x = .live e) :
      Khash.store h key x = .ok (h, 0) ∧ (slots h x).filled = 1 := by
    have hNeither := (slotOf_eq_live_iff.mp hSlot).1
    simp only [Flag.iseither, Bool.or_eq_false_iff] at hNeither
    refine ⟨?_, by simp [hSlot]⟩
    simp [Khash.store, Buffer.read_of_lt Fault.flags hFlags, hNeither, bind, Except.bind, pure,
      Except.pure]
  cases hLocated with
  | found e hMem hSlot hEq =>
      obtain ⟨stored', hSound', hClasses⟩ := hSound.assign hx hSlot val
      exact ⟨h, 0, stored', (hLive hSlot).1, rfl, hSound', rfl, rfl, by rw [(hLive hSlot).2],
        Or.inl ⟨hClasses, Or.inl (mem_classes.mpr ⟨e, hMem, hEq⟩)⟩⟩
  | full hAbsent hFull =>
      obtain ⟨e, hSlot⟩ := hFull x hx
      obtain ⟨stored', hSound', hClasses⟩ := hSound.assign hx hSlot val
      have hCard := card_contents_of_live hFull
      rw [hSound.counted.contents_eq, ← hSound.size_eq] at hCard
      exact ⟨h, 0, stored', (hLive hSlot).1, rfl, hSound', rfl, rfl, by rw [(hLive hSlot).2],
        Or.inl ⟨hClasses, Or.inr hCard⟩⟩
  | free hAbsent hFree hReach _ =>
      have hSize := hSound.size_le.trans hSound.filled_le
      have hTop := hSound.nBuckets_le
      obtain ⟨count, ret, hStore, hFilled⟩ := hSound.store_eq_storedAt hx hFree key
      refine ⟨storedAt h key x count, ret, (key, val) ::ₘ stored, hStore, rfl, ?_, rfl, rfl, hFilled,
        Or.inr ⟨notMem_classes.mpr hAbsent, classes_cons ..⟩⟩
      refine ⟨hSound.buckets, hSound.flags_size, hSound.keys_size, hSound.vals_size, ?_, ?_, ?_,
        hSound.upperBound_eq⟩
      · rw [slots, storedAt, view_set, slotOf_both]
        exact hSound.counted.store (e := (key, val)) hx hReach hFree hFilled
      · rw [Multiset.card_cons, ← hSound.size_eq]
        exact khintSucc_of_lt (by omega)
      · rw [classes_cons, Multiset.nodup_cons]
        exact ⟨notMem_classes.mpr hAbsent, hSound.nodup⟩

end Sound

/-- What the beginning of an insertion makes of a table. -/
def MadeRoom (maxLoadFactor : ℚ) (h h' : Table K V) : Prop :=
  h.nOccupied < h.upperBound ∧ h' = h ∨
    h.upperBound ≤ h.nOccupied ∧ (Refuses maxLoadFactor h (requested h) ∧ h' = h ∨
      ¬ Refuses maxLoadFactor h (requested h) ∧ h'.nBuckets = roundBuckets (requested h) ∧
        h'.nOccupied = h.size)

namespace Sound

variable {maxLoadFactor : ℚ} {bp : Blueprint K V} {h : Table K V} {stored : Multiset (K × V)}
  {key : K}

theorem requested_eq (hSound : Sound maxLoadFactor bp h stored) :
    ∃ k, 2 ≤ k ∧ k ≤ 31 ∧ roundBuckets (requested h) = 2 ^ k :=
  roundBuckets_buckets hSound.buckets (requested_cases h)

theorem makeRoom_returned (hSound : Sound maxLoadFactor bp h stored) {fuel : Nat}
    {r : Except Fault (Table K V)} (hRun : (makeRoom maxLoadFactor bp fuel h).run = some r) :
    ∃ h', r = .ok h' ∧ Sound maxLoadFactor bp h' stored ∧ MadeRoom maxLoadFactor h h' := by
  unfold makeRoom at hRun
  by_cases hFull : h.nOccupied ≥ h.upperBound
  · rw [if_pos hFull] at hRun
    obtain ⟨k, hLow, hHigh, hk⟩ := hSound.requested_eq
    obtain ⟨h', hOk, hSound', hCases⟩ := hSound.khResize_returned hLow hHigh hk hRun
    exact ⟨h', hOk, hSound', Or.inr ⟨hFull, hCases⟩⟩
  · rw [if_neg hFull] at hRun
    cases hRun
    exact ⟨h, rfl, hSound, Or.inl ⟨Nat.lt_of_not_le hFull, rfl⟩⟩

theorem makeRoom_returns (hSound : Sound maxLoadFactor bp h stored)
    (hRoom : Refuses maxLoadFactor h (requested h) ∨ h.size ≤ roundBuckets (requested h)) :
    Returns fun fuel => makeRoom maxLoadFactor bp fuel h := by
  unfold makeRoom
  split_ifs with hFull
  · obtain ⟨k, _, _, hk⟩ := hSound.requested_eq
    exact hSound.khResize_returns hk hRoom
  · exact .pure h

/-- An insertion that returned. Only a table without buckets makes it fault. -/
theorem insert_returned (hSound : Sound maxLoadFactor bp h stored) {fuel : Nat}
    {r : Except Fault (Table K V)}
    (hRun : (Shim.insert maxLoadFactor bp fuel h key).run = some r) :
    ∃ h₁, MadeRoom maxLoadFactor h h₁ ∧ Sound maxLoadFactor bp h₁ stored ∧
      (h₁.nBuckets = 0 ∧ r = .error .flags ∨
        h₁.nBuckets ≠ 0 ∧ ∃ h' stored' x, r = .ok h' ∧ Sound maxLoadFactor bp h' stored' ∧
          x < h₁.nBuckets ∧ Located bp h₁ stored key x ∧ h'.nBuckets = h₁.nBuckets ∧
          h'.upperBound = h₁.upperBound ∧
          h'.nOccupied + (slots h₁ x).filled = h₁.nOccupied + 1 ∧
          (classes bp stored' = classes bp stored ∧
              (bp.cls key ∈ classes bp stored ∨ h₁.size = h₁.nBuckets) ∨
            bp.cls key ∉ classes bp stored ∧
              classes bp stored' = bp.cls key ::ₘ classes bp stored)) := by
  simp only [Shim.insert, khPut, bind_assoc] at hRun
  obtain ⟨_, hError, _⟩ | ⟨h₁, hRoom, hRest⟩ := run_bind_eq_some.mp hRun
  · obtain ⟨_, hOk, _⟩ := hSound.makeRoom_returned hError
    cases hOk
  obtain ⟨_, hOk, hSound₁, hMade⟩ := hSound.makeRoom_returned hRoom
  cases hOk
  refine ⟨h₁, hMade, hSound₁, ?_⟩
  by_cases hPos : h₁.nBuckets = 0
  · refine Or.inl ⟨hPos, ?_⟩
    simp only [locate, hSound₁.read_first hPos] at hRest
    cases hRest
    rfl
  refine Or.inr ⟨hPos, ?_⟩
  obtain ⟨_, hError, _⟩ | ⟨x, hLocate, hStore⟩ := run_bind_eq_some.mp hRest
  · obtain ⟨_, hOk, _⟩ := hSound₁.locate_returned hPos hError
    cases hOk
  obtain ⟨_, hOk, hx, hLocated⟩ := hSound₁.locate_returned hPos hLocate
  cases hOk
  obtain ⟨h', ret, stored', hEq, hVals, hSound', hBuckets, hBound, hFilled, hClasses⟩ :=
    hSound₁.store hx hLocated bp.valueType
  have hWrite : h'.vals.write Fault.vals x bp.valueType = .ok (h'.vals.set x bp.valueType) :=
    Buffer.write_of_lt _ (by rw [hVals, hSound₁.vals_size]; exact hx) _
  refine ⟨{ h' with vals := h'.vals.set x bp.valueType }, stored', x, ?_, hSound', hx,
    hLocated, hBuckets, hBound, hFilled, hClasses⟩
  simpa [hEq, hWrite] using hStore.symm

theorem insert_returns (hSound : Sound maxLoadFactor bp h stored)
    (hRoom : Refuses maxLoadFactor h (requested h) ∨ h.size ≤ roundBuckets (requested h))
    (key : K) : Returns fun fuel => Shim.insert maxLoadFactor bp fuel h key := by
  simp only [Shim.insert, khPut, bind_assoc]
  refine (hSound.makeRoom_returns hRoom).andThen fun h₁ hReached => ?_
  obtain ⟨fuel, hReturned⟩ := hReached.exists_fuel
  obtain ⟨_, hOk, hSound₁, _⟩ := hSound.makeRoom_returned hReturned
  cases hOk
  refine (hSound₁.locate_returns key).andThen fun x _ => ?_
  refine (Returns.mk (Khash.store h₁ key x)).andThen fun found _ => ?_
  simp only [pure_bind]
  exact (Returns.mk _).andThen fun _ _ => .pure _

/-- An erasure returns, and leaves every other pair. -/
theorem erase_returned (hSound : Sound maxLoadFactor bp h stored) {fuel : Nat}
    {r : Except Fault (Table K V)} (hRun : (Shim.erase bp fuel h key).run = some r) :
    ∃ h' stored', r = .ok h' ∧ Sound maxLoadFactor bp h' stored' ∧ h'.nBuckets = h.nBuckets ∧
      h'.upperBound = h.upperBound ∧ h'.nOccupied = h.nOccupied ∧
      (bp.cls key ∉ classes bp stored ∧ stored' = stored ∨
        classes bp stored = bp.cls key ::ₘ classes bp stored') := by
  obtain ⟨_, hError, _⟩ | ⟨itr, hFind, hRest⟩ := run_bind_eq_some.mp hRun
  · obtain ⟨_, hOk, _⟩ := hSound.khGet_returned hError
    cases hOk
  obtain ⟨_, hOk, hCases⟩ := hSound.khGet_returned hFind
  cases hOk
  rcases hCases with ⟨hItr, e, hMem, hLive, hEq⟩ | ⟨hEnd, hAbsent⟩
  · rw [if_pos (Nat.ne_of_lt hItr)] at hRest
    obtain ⟨rest, rfl⟩ := Multiset.exists_cons_of_mem hMem
    have hFlags : itr < h.flags.size := hSound.flags_size ▸ hItr
    have hNeither := (slotOf_eq_live_iff.mp hLive).1
    have hSame : bp.cls e.1 = bp.cls key := bp.cls_eq_iff.mpr hEq
    have hDel : khDel h itr = .ok { h with
        flags := h.flags.set itr (h.flags.cell itr).setIsdelTrue
        size := khintPred h.size } := by
      simp [khDel, Nat.ne_of_lt hItr, Buffer.read_of_lt Fault.flags hFlags, hNeither,
        Buffer.write_of_lt Fault.flags hFlags, bind, Except.bind, pure, Except.pure]
    rw [hDel] at hRest
    cases hRest
    refine ⟨_, rest, rfl, ⟨hSound.buckets, hSound.flags_size, hSound.keys_size, hSound.vals_size,
      ?_, ?_, ?_, hSound.upperBound_eq⟩, rfl, rfl, rfl, Or.inr (by rw [classes_cons, hSame])⟩
    · simp only [Flag.iseither, Bool.or_eq_false_iff] at hNeither
      rw [slots, view_set_flags, slotOf_del hNeither.1]
      exact hSound.counted.bury hItr hLive
    · have hSize := hSound.size_eq
      rw [Multiset.card_cons] at hSize
      simp [khintPred, hSize]
    · have hNodup := hSound.nodup
      rw [classes_cons, Multiset.nodup_cons] at hNodup
      exact hNodup.2
  · rw [if_neg (not_not.mpr hEnd)] at hRest
    cases hRest
    exact ⟨h, stored, rfl, hSound, rfl, rfl, rfl, Or.inl ⟨notMem_classes.mpr hAbsent, rfl⟩⟩

theorem erase_returns (hSound : Sound maxLoadFactor bp h stored) (key : K) :
    Returns fun fuel => Shim.erase bp fuel h key := by
  refine (hSound.khGet_returns key).andThen fun itr _ => ?_
  split_ifs
  · exact .mk _
  · exact .pure h

/-- A call that returned a table has left a sound one. -/
theorem call_returned (hSound : Sound maxLoadFactor bp h stored) {op : Op K} {fuel : Nat}
    {h' : Table K V} (hRun : (Shim.call maxLoadFactor bp fuel h op).run = some (.ok h')) :
    ∃ stored', Sound maxLoadFactor bp h' stored' := by
  cases op with
  | insert key =>
      obtain ⟨h₁, _, _, ⟨_, hFault⟩ | ⟨_, _, stored', _, hOk, hSound', _⟩⟩ :=
        hSound.insert_returned hRun
      · cases hFault
      · cases hOk
        exact ⟨stored', hSound'⟩
  | erase key =>
      obtain ⟨_, stored', hOk, hSound', _⟩ := hSound.erase_returned hRun
      cases hOk
      exact ⟨stored', hSound'⟩

end Sound

section Runs

variable {maxLoadFactor : ℚ} {memory : Nat → K × V} {bp : Blueprint K V}

theorem init_sound (maxLoadFactor : ℚ) (memory : Nat → K × V) (bp : Blueprint K V) :
    Sound maxLoadFactor bp (init memory) 0 := by
  refine ⟨Or.inl rfl, rfl, rfl, rfl, ⟨fun p hp => absurd hp (Nat.not_lt_zero p), rfl, rfl⟩, rfl,
    Multiset.nodup_zero, ?_⟩
  have hFloor : ⌊((0 : Nat) : ℚ) * maxLoadFactor + 1 / 2⌋₊ = 0 := Nat.floor_eq_zero.mpr (by norm_num)
  exact (congrArg (· % 2 ^ 32) hFloor).symm

theorem run_concat (fuel : Nat) (ops : List (Op K)) (op : Op K) :
    Shim.run maxLoadFactor memory bp fuel (ops ++ [op]) =
      Shim.run maxLoadFactor memory bp fuel ops >>= fun h => Shim.call maxLoadFactor bp fuel h op := by
  simp [Shim.run, List.foldlM_append]

/-- Every table that a run reaches is sound. -/
theorem run_sound {fuel : Nat} {ops : List (Op K)} {h : Table K V}
    (hRun : (Shim.run maxLoadFactor memory bp fuel ops).run = some (.ok h)) :
    ∃ stored, Sound maxLoadFactor bp h stored := by
  induction ops using List.reverseRecOn generalizing h with
  | nil =>
      cases hRun
      exact ⟨0, init_sound maxLoadFactor memory bp⟩
  | append_singleton ops op ih =>
      rw [run_concat] at hRun
      obtain ⟨_, _, hFault⟩ | ⟨h₀, hBefore, hCall⟩ := run_bind_eq_some.mp hRun
      · cases hFault
      · obtain ⟨stored, hSound⟩ := ih hBefore
        exact hSound.call_returned hCall

end Runs

end HashBench.Khash
