import HashBench.Khash.Lookup

/-! The kick-out process of a resize. Every pair is in one of three places: under
the old flags, under the new ones, or carried on to its next bucket. -/
namespace HashBench.Khash

open Search Triangular OpenAddressing Memory

variable {K V : Type}

/-- The buckets under the old flags. -/
def oldSlots (st : Rehash K V) : Nat → Slot (K × V) := view st.flags st.keys st.vals

/-- The buckets under the new flags. -/
def newSlots (st : Rehash K V) : Nat → Slot (K × V) := view st.newFlags st.keys st.vals

/-- A rehash from `n` to `n'` buckets in progress, with these pairs carried. -/
structure Rehashing (bp : Blueprint K V) (n n' : Nat) (st : Rehash K V)
    (carried stored : Multiset (K × V)) : Prop where
  flags_size : st.flags.size = n
  newFlags_size : st.newFlags.size = n'
  keys_size : st.keys.size = max n n'
  vals_size : st.vals.size = max n n'
  clean : Clean (slotSeq bp (khintPred n')) (newSlots st) n'
  fresh : ∀ p, (st.newFlags.cell p).isdel = false
  apart : ∀ p < n, newSlots st p ≠ .empty → (oldSlots st p).entries = 0
  kept : contents (oldSlots st) n + carried + contents (newSlots st) n' = stored

theorem isOld_eq {flags : Buffer Flag} {n : Nat} (h : flags.size = n) (i : Nat) :
    isOld flags n i = .ok (decide (i < n) && !(flags.cell i).iseither) := by
  unfold isOld
  by_cases hi : i < n
  · simp [hi, Buffer.read_of_lt Fault.flags (h ▸ hi), bind, Except.bind, pure, Except.pure]
  · simp [hi, pure, Except.pure]

namespace Rehashing

variable {bp : Blueprint K V} {n n' : Nat} {st : Rehash K V} {carried stored : Multiset (K × V)}
  {e : K × V} {i : Nat}

/-- A pair written to an empty bucket on its probe under the new flags, where the
old flags show no pair afterwards. -/
theorem put (h : Rehashing bp n n' st {e} stored) (hi : i < n')
    (hReach : Reach (newSlots st) (slotSeq bp (khintPred n') e) i)
    (hEmpty : newSlots st i = .empty) (flags : Buffer Flag) (hSize : flags.size = n)
    (hGone : i < n → (view flags (st.keys.set i e.1) (st.vals.set i e.2) i).entries = 0)
    (hSame : ∀ p < n, p ≠ i → view flags (st.keys.set i e.1) (st.vals.set i e.2) p = oldSlots st p)
    {kicked : Multiset (K × V)}
    (hKicked : contents (oldSlots st) n =
      kicked + contents (view flags (st.keys.set i e.1) (st.vals.set i e.2)) n) :
    Rehashing bp n n' ⟨flags, st.newFlags.set i (st.newFlags.cell i).setIsemptyFalse,
      st.keys.set i e.1, st.vals.set i e.2⟩ kicked stored := by
  have hFlag : (st.newFlags.cell i).setIsemptyFalse = Flag.setIsbothFalse := by
    simp [Flag.setIsemptyFalse, Flag.setIsbothFalse, h.fresh i]
  rw [hFlag]
  have hNew : newSlots ⟨flags, st.newFlags.set i Flag.setIsbothFalse, st.keys.set i e.1,
      st.vals.set i e.2⟩ = Function.update (newSlots st) i (.live e) := view_set ..
  refine ⟨hSize, h.newFlags_size, h.keys_size, h.vals_size, ?_, fun p => ?_, fun p hp hNe => ?_, ?_⟩
  · rw [hNew]
    refine ⟨h.clean.probed.insert hReach, fun p hp => ?_⟩
    by_cases hEq : p = i
    · simp [hEq]
    · rw [Function.update_of_ne hEq]
      exact h.clean.no_deleted p hp
  · by_cases hEq : p = i
    · subst hEq
      rw [Buffer.set_cell_self]
      rfl
    · rw [Buffer.set_cell_of_ne hEq]
      exact h.fresh p
  · by_cases hEq : p = i
    · subst hEq
      exact hGone hp
    · rw [hNew, Function.update_of_ne hEq] at hNe
      have hOld := h.apart p hp hNe
      rwa [← hSame p hp hEq] at hOld
  · rw [hNew, contents_update_live hi (by rw [hEmpty]; rfl), ← h.kept, hKicked,
      ← Multiset.singleton_add]
    simp only [oldSlots]
    abel

/-- One round of the process, after which a pair kicked out is carried on. -/
theorem kickOutAt (h : Rehashing bp n n' st {e} stored) (hi : i < n')
    (hReach : Reach (newSlots st) (slotSeq bp (khintPred n') e) i)
    (hEmpty : newSlots st i = .empty) :
    ∃ st' kicked, kickOutAt n i e.1 e.2 st = .ok (st', kicked) ∧
      Rehashing bp n n' st' (kicked.elim 0 singleton) stored ∧
      contents (oldSlots st) n = kicked.elim 0 singleton + contents (oldSlots st') n ∧
      ∀ p < n, (oldSlots st p).entries = 0 → (oldSlots st' p).entries = 0 := by
  have hKeys : i < st.keys.size := h.keys_size ▸ lt_max_of_lt_right hi
  have hVals : i < st.vals.size := h.vals_size ▸ lt_max_of_lt_right hi
  have hNewFlags : i < st.newFlags.size := h.newFlags_size ▸ hi
  unfold Khash.kickOutAt
  simp only [Buffer.read_of_lt Fault.flags hNewFlags, Buffer.write_of_lt Fault.flags hNewFlags,
    Buffer.read_of_lt Fault.keys hKeys, Buffer.write_of_lt Fault.keys hKeys,
    Buffer.read_of_lt Fault.vals hVals, Buffer.write_of_lt Fault.vals hVals]
  rw [isOld_eq h.flags_size]
  cases hOld : decide (i < n) && !(st.flags.cell i).iseither with
  | true =>
      obtain ⟨hLt, hNeither⟩ : i < n ∧ (st.flags.cell i).iseither = false := by simpa using hOld
      have hFlags : i < st.flags.size := h.flags_size ▸ hLt
      have hEmptyFalse : (st.flags.cell i).isempty = false := by
        simp only [Flag.iseither, Bool.or_eq_false_iff] at hNeither
        exact hNeither.1
      have hView : view (st.flags.set i (st.flags.cell i).setIsdelTrue) (st.keys.set i e.1)
          (st.vals.set i e.2) = Function.update (oldSlots st) i .deleted := by
        rw [view_set, slotOf_del hEmptyFalse]
        rfl
      have hLive : oldSlots st i = .live (st.keys.cell i, st.vals.cell i) :=
        slotOf_eq_live_iff.mpr ⟨hNeither, rfl⟩
      have hContents : contents (oldSlots st) n = {(st.keys.cell i, st.vals.cell i)} +
          contents (Function.update (oldSlots st) i .deleted) n :=
        (contents_update_cleared hLt hLive Slot.entries_deleted).symm
      have hPut := h.put hi hReach hEmpty (st.flags.set i (st.flags.cell i).setIsdelTrue)
        h.flags_size (by simp [hView]) (fun p _ hNe => by simp [hView, hNe])
        (by rw [hView]; exact hContents)
      refine ⟨_, some (st.keys.cell i, st.vals.cell i), ?_, hPut, ?_, fun p _ hFree => ?_⟩
      · simp only [Buffer.read_of_lt Fault.flags hFlags, Buffer.write_of_lt Fault.flags hFlags]
        rfl
      · simp only [oldSlots, hView]
        exact hContents
      · simp only [oldSlots, hView]
        by_cases hEq : p = i
        · simp [hEq]
        · rwa [Function.update_of_ne hEq]
  | false =>
      have hView (p : Nat) (hp : p < n) :
          view st.flags (st.keys.set i e.1) (st.vals.set i e.2) p = oldSlots st p := by
        by_cases hEq : p = i
        · subst hEq
          rw [view_set_hidden (by simpa [hp] using hOld)]
          rfl
        · simp [view, oldSlots, hEq, Buffer.set_cell_of_ne]
      have hContents : contents (oldSlots st) n =
          0 + contents (view st.flags (st.keys.set i e.1) (st.vals.set i e.2)) n := by
        rw [zero_add]
        exact (total_congr _ hView).symm
      have hPut := h.put hi hReach hEmpty st.flags h.flags_size
        (fun hLt => by rw [hView i hLt]; exact slotOf_free (by simpa [hLt] using hOld))
        (fun p hp _ => hView p hp) hContents
      exact ⟨_, none, rfl, hPut, hContents, fun p hp hFree => by rwa [oldSlots, hView p hp]⟩

theorem newEmpty_eq (h : Rehashing bp n n' st carried stored) (hi : i < n') :
    newEmpty st.newFlags i = (newSlots st i).isEmpty := by
  rw [newEmpty, Buffer.read_of_lt Fault.flags (h.newFlags_size ▸ hi), newSlots, view, slotOf_isEmpty]

section Rounds

variable {k : Nat} (hSize : n' = 2 ^ k)

include hSize

theorem probe_lt (hash j : Nat) : probe (khintPred n') hash j < n' := by
  have hPos := Nat.two_pow_pos k
  have hPred : khintPred n' = n' - 1 := if_neg (by omega)
  have hLt := Triangular.probe_lt (mask_succ hSize) hash j
  rw [hPred]
  omega

theorem exists_probe (hash : Nat) {p : Nat} (hp : p < n') :
    ∃ j, probe (khintPred n') hash j = p := by
  have hPred : khintPred n' = n' - 1 := if_neg (by omega)
  rw [hPred]
  exact Triangular.exists_probe (mask_succ hSize) hash (by omega)

/-- The bucket found is the first empty one on the probe. -/
theorem firstEmpty_returned (h : Rehashing bp n n' st carried stored) {fuel : Nat}
    (hFound : firstEmpty bp (khintPred n') fuel st.newFlags e.1 = some i) :
    i < n' ∧ newSlots st i = .empty ∧ Reach (newSlots st) (slotSeq bp (khintPred n') e) i := by
  obtain ⟨⟨j, _⟩, hSearch, rfl⟩ := Option.map_eq_some_iff.mp hFound
  obtain ⟨_, hBefore, hAt, _⟩ := search_eq_some hSearch
  simp only [h.newEmpty_eq (probe_lt hSize _ _)] at hBefore hAt
  refine ⟨probe_lt hSize _ _, Slot.isEmpty_iff.mp hAt, j, rfl, fun l hl hEmpty => ?_⟩
  exact Bool.eq_false_iff.mp (hBefore l hl) (Slot.isEmpty_iff.mpr hEmpty)

/-- While a pair is carried, a bucket is empty under the new flags. -/
theorem firstEmpty_returns (h : Rehashing bp n n' st {e} stored) (hRoom : stored.card ≤ n')
    (key : K) : ∃ i, ReturnsTo (fun fuel => firstEmpty bp (khintPred n') fuel st.newFlags key) i := by
  have hCard := congrArg Multiset.card h.kept
  simp only [Multiset.card_add, Multiset.card_singleton] at hCard
  have hFree : total Slot.filled (newSlots st) n' < n' := by
    rw [h.clean.filled_eq]
    omega
  obtain ⟨p, hp, hEmpty⟩ := exists_empty hFree
  obtain ⟨j, hj⟩ := exists_probe hSize (hashOf bp key) hp
  obtain ⟨found, hFound⟩ := search_returns (newEmpty st.newFlags)
    (probe (khintPred n') (hashOf bp key)) ⟨j, by rw [hj, h.newEmpty_eq hp, hEmpty]; rfl⟩
    (fun _ acc => acc) ()
  exact ⟨_, hFound.map _⟩

/-- A kick-out process that returned has placed the pair and all it kicked out. -/
theorem kickOut_returned {fuel : Nat} {st : Rehash K V} {e : K × V}
    (h : Rehashing bp n n' st {e} stored) {r : Except Fault (Rehash K V)}
    (hRun : (kickOut bp n (khintPred n') fuel e.1 e.2 st).run = some r) :
    ∃ st', r = .ok st' ∧ Rehashing bp n n' st' 0 stored ∧
      ∀ p < n, (oldSlots st p).entries = 0 → (oldSlots st' p).entries = 0 := by
  induction fuel generalizing st e with
  | zero => cases hRun
  | succ fuel ih =>
      rw [kickOut] at hRun
      obtain ⟨_, hError, _⟩ | ⟨i, hFound, hRest⟩ := run_bind_eq_some.mp hRun
      · obtain ⟨_, _, hOk⟩ := Option.map_eq_some_iff.mp hError
        cases hOk
      · obtain ⟨i, hFound, hOk⟩ := Option.map_eq_some_iff.mp hFound
        cases hOk
        obtain ⟨hi, hEmpty, hReach⟩ := h.firstEmpty_returned hSize hFound
        obtain ⟨st', kicked, hRound, hRehash, _, hFree⟩ := h.kickOutAt hi hReach hEmpty
        rw [hRound] at hRest
        cases kicked with
        | none =>
            cases hRest
            exact ⟨st', rfl, hRehash, hFree⟩
        | some e' =>
            obtain ⟨st'', hOk, hDone, hFree'⟩ := ih hRehash hRest
            exact ⟨st'', hOk, hDone, fun p hp hOld => hFree' p hp (hFree p hp hOld)⟩

/-- The kick-out process ends: every round but the last takes a pair from under
the old flags. -/
theorem kickOut_returns (hRoom : stored.card ≤ n') {st : Rehash K V} {e : K × V}
    (h : Rehashing bp n n' st {e} stored) :
    Returns fun fuel => kickOut bp n (khintPred n') fuel e.1 e.2 st := by
  induction hLeft : (contents (oldSlots st) n).card using Nat.strong_induction_on
    generalizing st e with
  | _ left ih =>
      refine .of_succ ?_
      simp only [kickOut]
      obtain ⟨i, hFound⟩ := h.firstEmpty_returns hSize hRoom e.1
      obtain ⟨fuel, hReturned⟩ := hFound.exists_fuel
      obtain ⟨hi, hEmpty, hReach⟩ := h.firstEmpty_returned hSize hReturned
      obtain ⟨st', kicked, hRound, hRehash, hContents, _⟩ := h.kickOutAt hi hReach hEmpty
      refine Returns.andThen ⟨.ok i, hFound.succ.map _⟩ fun i' hi' => ?_
      obtain rfl : i = i' := by simpa using (hFound.succ.map Except.ok).unique hi'
      rw [hRound]
      cases kicked with
      | none => exact .pure st'
      | some e' =>
          have hCard := congrArg Multiset.card hContents
          rw [Option.elim_some, Multiset.card_add, Multiset.card_singleton] at hCard
          exact ih (contents (oldSlots st') n).card (by omega) hRehash rfl

end Rounds

/-- The pair of an old bucket is taken out of it. -/
theorem take (h : Rehashing bp n n' st 0 stored) (hi : i < n)
    (hNeither : (st.flags.cell i).iseither = false) :
    Rehashing bp n n' { st with flags := st.flags.set i (st.flags.cell i).setIsdelTrue }
        {(st.keys.cell i, st.vals.cell i)} stored ∧
      ∀ p, p = i ∨ (oldSlots st p).entries = 0 → (oldSlots
        { st with flags := st.flags.set i (st.flags.cell i).setIsdelTrue } p).entries = 0 := by
  have hEmpty : (st.flags.cell i).isempty = false := by
    simp only [Flag.iseither, Bool.or_eq_false_iff] at hNeither
    exact hNeither.1
  have hOld : oldSlots { st with flags := st.flags.set i (st.flags.cell i).setIsdelTrue } =
      Function.update (oldSlots st) i .deleted := by
    rw [oldSlots, view_set_flags, slotOf_del hEmpty]
    rfl
  have hLive : oldSlots st i = .live (st.keys.cell i, st.vals.cell i) :=
    slotOf_eq_live_iff.mpr ⟨hNeither, rfl⟩
  have hFree (p : Nat) (hp : p = i ∨ (oldSlots st p).entries = 0) : (oldSlots
      { st with flags := st.flags.set i (st.flags.cell i).setIsdelTrue } p).entries = 0 := by
    rw [hOld]
    by_cases hEq : p = i
    · simp [hEq]
    · rw [Function.update_of_ne hEq]
      exact hp.resolve_left hEq
  refine ⟨⟨h.flags_size, h.newFlags_size, h.keys_size, h.vals_size, h.clean, h.fresh,
    fun p hp hNe => hFree p (Or.inr (h.apart p hp hNe)), ?_⟩, hFree⟩
  · have hKept := h.kept
    rw [← contents_update_cleared hi hLive Slot.entries_deleted, add_zero,
      ← Multiset.singleton_add] at hKept
    rw [hOld, add_comm _ {_}]
    exact hKept

/-- The body of the loop over the old buckets. -/
theorem rehashAt_eq (h : Rehashing bp n n' st 0 stored) (hi : i < n) (newMask fuel : Nat) :
    rehashAt bp n newMask fuel i st = if (st.flags.cell i).iseither then pure st else
      kickOut bp n newMask fuel (st.keys.cell i) (st.vals.cell i)
        { st with flags := st.flags.set i (st.flags.cell i).setIsdelTrue } := by
  have hFlags : i < st.flags.size := h.flags_size ▸ hi
  have hKeys : i < st.keys.size := h.keys_size ▸ lt_max_of_lt_left hi
  have hVals : i < st.vals.size := h.vals_size ▸ lt_max_of_lt_left hi
  simp only [rehashAt, Buffer.read_of_lt Fault.flags hFlags, Buffer.read_of_lt Fault.keys hKeys,
    Buffer.read_of_lt Fault.vals hVals, Buffer.write_of_lt Fault.flags hFlags, check_bind]
  cases (st.flags.cell i).iseither <;> rfl

section Loop

variable {k : Nat} (hSize : n' = 2 ^ k)

include hSize

/-- The body of the loop leaves no pair under the old flags of its bucket. -/
theorem rehashAt_returned (h : Rehashing bp n n' st 0 stored) (hi : i < n) {fuel : Nat}
    {r : Except Fault (Rehash K V)}
    (hRun : (rehashAt bp n (khintPred n') fuel i st).run = some r) :
    ∃ st', r = .ok st' ∧ Rehashing bp n n' st' 0 stored ∧
      ∀ p < n, p = i ∨ (oldSlots st p).entries = 0 → (oldSlots st' p).entries = 0 := by
  rw [h.rehashAt_eq hi] at hRun
  cases hEither : (st.flags.cell i).iseither with
  | true =>
      rw [hEither, if_pos rfl] at hRun
      cases hRun
      refine ⟨st, rfl, h, fun p _ hFree => hFree.elim (fun hEq => ?_) id⟩
      exact hEq ▸ slotOf_free hEither
  | false =>
      obtain ⟨hTake, hTaken⟩ := h.take hi hEither
      rw [hEither, if_neg Bool.false_ne_true] at hRun
      obtain ⟨st', hOk, hDone, hFree⟩ := hTake.kickOut_returned hSize hRun
      exact ⟨st', hOk, hDone, fun p hp hOld => hFree p hp (hTaken p hOld)⟩

theorem rehashAt_returns (h : Rehashing bp n n' st 0 stored) (hRoom : stored.card ≤ n')
    (hi : i < n) : Returns fun fuel => rehashAt bp n (khintPred n') fuel i st := by
  simp only [h.rehashAt_eq hi]
  cases hEither : (st.flags.cell i).iseither with
  | true => exact .pure st
  | false => exact (h.take hi hEither).1.kickOut_returns hSize hRoom

/-- The loop leaves no pair under the old flags of the buckets it has passed. -/
theorem rehashTo_returned (h : Rehashing bp n n' st 0 stored) {fuel count : Nat} (hCount : count ≤ n)
    {r : Except Fault (Rehash K V)}
    (hRun : (rehashTo bp n (khintPred n') fuel st count).run = some r) :
    ∃ st', r = .ok st' ∧ Rehashing bp n n' st' 0 stored ∧
      ∀ p < count, (oldSlots st' p).entries = 0 := by
  induction count generalizing r with
  | zero =>
      cases hRun
      exact ⟨st, rfl, h, fun p hp => absurd hp (Nat.not_lt_zero p)⟩
  | succ count ih =>
      obtain ⟨_, hError, _⟩ | ⟨st', hBefore, hBody⟩ := run_bind_eq_some.mp hRun
      · obtain ⟨_, hOk, _⟩ := ih (Nat.le_of_succ_le hCount) hError
        cases hOk
      · obtain ⟨_, hOk, hRehash, hPassed⟩ := ih (Nat.le_of_succ_le hCount) hBefore
        cases hOk
        obtain ⟨st'', hOk, hDone, hFree⟩ := hRehash.rehashAt_returned hSize hCount hBody
        refine ⟨st'', hOk, hDone, fun p hp => hFree p (hp.trans_le hCount) ?_⟩
        rcases Nat.lt_succ_iff_lt_or_eq.mp hp with hLt | rfl
        · exact Or.inr (hPassed p hLt)
        · exact Or.inl rfl

theorem rehashTo_returns (h : Rehashing bp n n' st 0 stored) (hRoom : stored.card ≤ n')
    {count : Nat} (hCount : count ≤ n) :
    Returns fun fuel => rehashTo bp n (khintPred n') fuel st count := by
  induction count with
  | zero => exact .pure st
  | succ count ih =>
      refine (ih (Nat.le_of_succ_le hCount)).andThen fun st' hReached => ?_
      obtain ⟨fuel, hReturned⟩ := hReached.exists_fuel
      obtain ⟨_, hOk, hRehash, _⟩ :=
        h.rehashTo_returned hSize (Nat.le_of_succ_le hCount) hReturned
      cases hOk
      exact hRehash.rehashAt_returns hSize hRoom hCount

end Loop

end Rehashing

end HashBench.Khash
