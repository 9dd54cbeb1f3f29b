import HashBench.Verstable.Runs

/-! Iterations over a table. Four metadata are read at once, and the stopper after
the last bucket ends the search for the next key. -/
namespace HashBench.Verstable

open Search Chains OpenAddressing Iteration

variable {K V : Type} {maxLoad : ℚ} {bucketSize : Nat} {memory : Nat → K × V}
  {bp : Blueprint K V} {table : Table K V} {key : K} {stored : Multiset (K × V)} {itr : Itr}
  {p : Nat}

/-- Whether a bucket holds a pair. -/
def used (table : Table K V) (p : Nat) : Bool := table.metadata p != vtEmpty

theorem used_iff : used table p = true ↔ table.metadata p ≠ vtEmpty := bne_iff_ne

theorem used_eq_false : used table p = false ↔ table.metadata p = vtEmpty := by
  rw [used, bne_eq_false_iff_eq]

section FastForward

variable {n m q : Nat}

/-- What a group of four metadata says, of which the first that is not zero is known. -/
theorem group_of_used {p r : Nat} (hr : r < 4) (hBefore : ∀ i < r, used table (p + i) = false)
    (hUsed : used table (p + r) = true) :
    anyNonzero table p = true ∧ firstNonzero table p = r := by
  have hEmpty (i : Nat) (hi : i < r) : table.metadata (p + i) = vtEmpty :=
    used_eq_false.mp (hBefore i hi)
  have hNe := used_iff.mp hUsed
  unfold anyNonzero firstNonzero
  obtain rfl | rfl | rfl | rfl : r = 0 ∨ r = 1 ∨ r = 2 ∨ r = 3 := by omega
  · simp_all
  · have h0 := hEmpty 0 (by decide)
    simp_all
  · have h0 := hEmpty 0 (by decide)
    have h1 := hEmpty 1 (by decide)
    simp_all
  · have h0 := hEmpty 0 (by decide)
    have h1 := hEmpty 1 (by decide)
    have h2 := hEmpty 2 (by decide)
    simp_all

/-- The loop over groups of four metadata stops at the first that is not zero. -/
theorem fastForward_returned (hLow : m ≤ q) (hBefore : ∀ p, m ≤ p → p < q → used table p = false)
    (hUsed : used table q = true) (n : Nat) (home : Option Nat) {fuel : Nat} (hFuel : q < fuel) :
    fastForward fuel table ⟨m, m, n, home⟩ = some ⟨q, q, n, none⟩ := by
  obtain ⟨d, rfl⟩ := Nat.exists_eq_add_of_le hLow
  have hSplit : m + d = m + 4 * (d / 4) + d % 4 := by omega
  have hGroup : ∀ i < d / 4, anyNonzero table (m + 4 * i) = false := by
    intro i hi
    have hNone (k : Nat) (hk : k < 4) : table.metadata (m + 4 * i + k) = vtEmpty :=
      used_eq_false.mp (hBefore _ (by omega) (by omega))
    have h0 := hNone 0 (by decide)
    have h1 := hNone 1 (by decide)
    have h2 := hNone 2 (by decide)
    have h3 := hNone 3 (by decide)
    simp_all [anyNonzero]
  obtain ⟨hAny, hFirst⟩ := group_of_used (Nat.mod_lt d (by decide))
    (fun i hi => hBefore _ (by omega) (by omega)) (hSplit ▸ hUsed)
  have hSearch : search (anyNonzero table) (fun _ acc => acc) (fun j => m + 4 * j) fuel 0 () =
      some (d / 4, ()) :=
    search_first hGroup hAny (fun _ acc => acc) () (by omega)
  simp only [fastForward, hSearch, Option.map_some, hFirst]
  have hOffset : 4 * (d / 4) + d % 4 = d := by omega
  rw [hOffset]

end FastForward

section Walk

/-- Where the metadata are set up for iterations. -/
theorem fastForward_skip (hStopper : table.metadata (table.bucketsMask + 1) ≠ vtEmpty)
    (hp : p ≤ table.bucketsMask + 1) (home : Option Nat) {fuel : Nat}
    (hFuel : table.bucketsMask + 1 < fuel) :
    fastForward fuel table (table.itrAt p home) =
      some (table.itrAt (skip (used table) (table.bucketsMask + 1) p) none) := by
  have hLe : skip (used table) (table.bucketsMask + 1) p ≤ table.bucketsMask + 1 := skip_le hp
  refine fastForward_returned (le_skip p) (fun q hLow hq => ?_) ?_ _ home (hLe.trans_lt hFuel)
  · exact unused_before_skip hLow hq (hq.trans_le hLe)
  · rcases Nat.lt_or_eq_of_le hLe with hLt | hEq
    · exact used_skip p hLt
    · rw [hEq]
      exact used_iff.mpr hStopper

theorem isEnd_itrAt (table : Table K V) (p : Nat) (home : Option Nat) :
    isEnd (table.itrAt p home) = decide (p = table.bucketsMask + 1) := rfl

theorem next_skip (hStopper : table.metadata (table.bucketsMask + 1) ≠ vtEmpty)
    (hp : p ≤ table.bucketsMask) (home : Option Nat) {fuel : Nat}
    (hFuel : table.bucketsMask + 1 < fuel) :
    next fuel table (table.itrAt p home) =
      some (table.itrAt (skip (used table) (table.bucketsMask + 1) (p + 1)) none) :=
  fastForward_skip hStopper (Nat.succ_le_succ hp) home hFuel

/-- Whether a loop over the table goes on. It would not end where the fuel ran out. -/
def goesOn : Option Itr → Bool
  | none => true
  | some itr => !isEnd itr

/-- A walk from a bucket visits the pairs of this and the later buckets. -/
theorem visits_from (hStopper : table.metadata (table.bucketsMask + 1) ≠ vtEmpty) {fuel : Nat}
    (hFuel : table.bucketsMask + 1 < fuel) (hp : p ≤ table.bucketsMask + 1)
    (hUsed : p < table.bucketsMask + 1 → used table p = true) (home : Option Nat) :
    Visits goesOn (fun it => it.bind (next fuel table)) (fun it => it.bind (pairAt table))
      (some (table.itrAt p home))
      ((usedFrom (used table) (table.bucketsMask + 1) p).map fun q => some (table.buckets q)) := by
  induction hd : table.bucketsMask + 1 - p using Nat.strong_induction_on generalizing p home with
  | _ d ih =>
      by_cases hEnd : p = table.bucketsMask + 1
      · rw [usedFrom_of_ge (Nat.le_of_eq hEnd.symm)]
        refine .done ?_
        rw [goesOn, isEnd_itrAt, decide_eq_true hEnd]
        rfl
      · have hLt : p < table.bucketsMask + 1 := Nat.lt_of_le_of_ne hp hEnd
        have hGoesOn : isEnd (table.itrAt p home) = false := by
          rw [isEnd_itrAt, decide_eq_false hEnd]
        rw [usedFrom_of_used hLt (hUsed hLt), List.map_cons]
        refine .cons (by rw [goesOn, hGoesOn]; rfl) ?_ ?_
        · rw [Option.bind_some, pairAt, hGoesOn, if_neg Bool.false_ne_true]
          rfl
        · rw [Option.bind_some, next_skip hStopper (Nat.le_of_lt_succ hLt) home hFuel,
            ← usedFrom_skip]
          have hAhead : p + 1 ≤ skip (used table) (table.bucketsMask + 1) (p + 1) := le_skip (p + 1)
          have hLe : skip (used table) (table.bucketsMask + 1) (p + 1) ≤ table.bucketsMask + 1 :=
            skip_le hLt
          exact ih _ (by omega) hLe (used_skip (p + 1)) none rfl

end Walk

section Order

/-- The pairs of the used buckets, from a bucket on. -/
def pairsFrom (table : Table K V) (p : Nat) : List (K × V) :=
  (usedFrom (used table) (table.bucketsMask + 1) p).map table.buckets

theorem coe_pairsFrom (h : Kept bp table stored) :
    (pairsFrom table 0 : Multiset (K × V)) = stored := by
  have hPairs (n : Nat) : (((List.range n).filter (used table)).map table.buckets :
      Multiset (K × V)) = contents (slots table) n := by
    induction n with
    | zero => rfl
    | succ n ih =>
        rw [List.range_succ, List.filter_append, List.map_append, ← Multiset.coe_add, ih,
          contents, contents, total_succ]
        congr 1
        cases hUsed : used table n with
        | false =>
            rw [slots_eq_empty_iff.mpr (used_eq_false.mp hUsed), List.filter_singleton, hUsed]
            rfl
        | true =>
            rw [slots_of_ne (used_iff.mp hUsed), List.filter_singleton, hUsed]
            rfl
  rw [pairsFrom, usedFrom, Nat.sub_zero, ← List.range_eq_range', hPairs, h.contents_eq]

end Order

theorem PointsAt.eq_itrAt (h : PointsAt bp table itr p) :
    itr = table.itrAt p itr.homeBucket := by
  cases itr with
  | mk data metadatum metadataEnd homeBucket =>
      rw [Table.itrAt, Itr.mk.injEq]
      exact ⟨h.data, h.metadatum, h.metadataEnd, rfl⟩

namespace Sound

/-- A walk from the first iterator visits all pairs, in the order of their buckets. -/
theorem first_visits (h : Sound bp table stored) {fuel : Nat}
    (hFuel : table.bucketsMask + 1 < fuel) :
    Visits goesOn (fun it => it.bind (next fuel table)) (fun it => it.bind (pairAt table))
      (first fuel table) ((pairsFrom table 0).map some) := by
  have hPairs := coe_pairsFrom h.toKept
  unfold first
  split_ifs with hCount
  · have hNone : stored = 0 := Multiset.card_eq_zero.mp (h.keyCount_eq.symm.trans hCount)
    rw [hNone, Multiset.coe_eq_zero] at hPairs
    rw [hPairs]
    exact .done rfl
  · have hStopper := h.stopper (h.mask_ne_zero_of_count hCount)
    rw [fastForward_skip hStopper (Nat.zero_le _) none hFuel, pairsFrom, ← usedFrom_skip,
      List.map_map]
    exact visits_from hStopper hFuel (skip_le (Nat.zero_le _)) (used_skip 0) none

/-- An iteration that begins at a pair goes on as the iteration over all pairs. -/
theorem resumes_at (h : Sound bp table stored) (hAt : PointsAt bp table itr p) {fuel : Nat}
    (hFuel : table.bucketsMask + 1 < fuel) :
    Resumes goesOn (fun it => it.bind (next fuel table)) (fun it => it.bind (pairAt table))
      (first fuel table) (some itr) fun pair => pair = some (table.buckets p) := by
  have hLt := h.lt_succ hAt.occupied
  have hUsed : used table p = true := used_iff.mpr hAt.occupied.2
  have hPair : (some itr).bind (pairAt table) = some (table.buckets p) := by
    rw [Option.bind_some, pairAt, hAt.not_end, if_neg Bool.false_ne_true, hAt.data]
  have hFirst := h.first_visits hFuel
  have hFound := visits_from (h.stopper (h.mask_ne_zero hAt.occupied)) hFuel hLt.le
    (fun _ => hUsed) itr.homeBucket
  rw [pairsFrom, usedFrom_append (Nat.zero_le p) hLt.le, usedFrom_of_used hLt hUsed,
    List.map_map, List.map_append, List.map_cons] at hFirst
  rw [← hAt.eq_itrAt, usedFrom_of_used hLt hUsed, List.map_cons] at hFound
  refine ⟨?_, hPair, _, some (table.buckets p), _, rfl, hFirst, hFound⟩
  rw [goesOn, hAt.not_end]
  rfl

end Sound

/-- After a run that succeeded iterations visit every pair once, and one that begins
at a looked up key goes on as the iteration over all pairs does from there. -/
theorem verstable_iterates {fuel : Nat} {calls : List (Call K V)}
    (h : run maxLoad bucketSize memory bp fuel calls = some (true, table)) :
    ∃ order, bp.Lists order (bp.mapOf (calls.map Call.op)) ∧ ∀ fuel > table.bucketsMask + 1,
      Visits goesOn (fun it => it.bind (next fuel table)) (fun it => it.bind (pairAt table))
        (first fuel table) (order.map some) ∧
      ∀ key pair, bp.mapOf (calls.map Call.op) key = some pair →
        ∃ itr, ReturnsTo (fun fuel => get bp fuel table key) itr ∧
          Resumes goesOn (fun it => it.bind (next fuel table)) (fun it => it.bind (pairAt table))
            (first fuel table) (some itr) fun visited => visited = some pair := by
  obtain ⟨stored, hSound, _, hFinds⟩ := run_returned h
  obtain rfl := coe_pairsFrom hSound.toKept
  refine ⟨pairsFrom table 0, hFinds.lists hSound.nodup, fun fuel hFuel =>
    ⟨hSound.first_visits hFuel, fun key pair hPair => ?_⟩⟩
  obtain ⟨itr, hReturns, ⟨p, hAt, hKey⟩ | ⟨_, hAbsent⟩⟩ := hSound.get_returns key
  · have hSame := pairAt_eq hSound hFinds hAt hKey
    rw [pairAt, hAt.not_end, if_neg Bool.false_ne_true, hAt.data, hPair] at hSame
    exact ⟨itr, hReturns, hSame ▸ hSound.resumes_at hAt hFuel⟩
  · rw [hFinds.eq_none hAbsent] at hPair
    cases hPair

theorem verstable_iterates_sample : ∃ table,
    run (7 / 8) 16 (fun _ => (0, 0)) (Blueprint.ofEq BitVec.toNat 0) 20 sample =
        some (true, table) ∧
      ∃ order, (Blueprint.ofEq BitVec.toNat 0).Lists order
          ((Blueprint.ofEq BitVec.toNat 0).mapOf (sample.map Call.op)) ∧
        ∀ fuel > table.bucketsMask + 1,
          Visits goesOn (fun it => it.bind (next fuel table)) (fun it => it.bind (pairAt table))
            (first fuel table) (order.map some) := by
  obtain ⟨table, hRun⟩ := exists_sample
  obtain ⟨order, hOrder, hVisits⟩ := verstable_iterates hRun
  exact ⟨table, hRun, order, hOrder, fun fuel hFuel => (hVisits fuel hFuel).1⟩

section EraseWhere

variable (bp) (drop : K × V → Bool)

/-- Erases the pair at an iterator or goes past it. -/
def eraseOrPass (fuel : Nat) (table : Table K V) (itr : Itr) : Option (Table K V × Itr) :=
  if drop (table.buckets itr.data) then eraseItr bp fuel table itr
  else (next fuel table itr).map fun itr => (table, itr)

/-- A loop over the table that erases some of the pairs, and what it visits. -/
def eraseWhere : Nat → Table K V → Itr → Option (List (K × V) × Table K V)
  | 0, _, _ => none
  | fuel + 1, table, itr =>
      if isEnd itr then some ([], table)
      else do
        let (rest, itr') ← eraseOrPass bp drop (fuel + 1) table itr
        let (visits, left) ← eraseWhere fuel rest itr'
        return (table.buckets itr.data :: visits, left)

variable {bp drop}

theorem next_returns (hStopper : table.metadata (table.bucketsMask + 1) ≠ vtEmpty)
    (hp : p ≤ table.bucketsMask) (home : Option Nat) :
    ReturnsTo (fun fuel => next fuel table (table.itrAt p home))
      (table.itrAt (skip (used table) (table.bucketsMask + 1) (p + 1)) none) :=
  (Filter.eventually_gt_atTop _).mono fun _ hFuel => next_skip hStopper hp home hFuel

/-- No pair is passed on the way to the next used bucket. -/
theorem contents_skip (hp : p ≤ table.bucketsMask + 1) :
    contents (slots table) (skip (used table) (table.bucketsMask + 1) p) =
      contents (slots table) p := by
  refine total_extend _ (le_skip p) fun q hLow hq => ?_
  have hUnused := unused_before_skip hLow hq (hq.trans_le (skip_le hp))
  rw [slots_eq_empty_iff.mpr (used_eq_false.mp hUnused)]
  rfl

/-- A removal leaves the pairs before the bucket as they were, whatever bucket
before it the last key of the chain came from. -/
theorem contents_removed {table' : Table K V} {last : Nat} (hp : p ∈ table.occupied)
    (hLast : last ∈ table.occupied) (hLe : last ≤ p) (hSlots : slots table' =
      Function.update (Function.update (slots table) p (slots table last)) last .empty) :
    contents (slots table') (p + 1) = contents (slots table) p := by
  have hAhead : contents (Function.update (slots table) p (slots table last)) (p + 1) =
      table.buckets last ::ₘ contents (slots table) p := by
    rw [contents, total_succ, Function.update_self, slots_of_ne hLast.2, Slot.entries_live,
      add_comm, Multiset.singleton_add]
    congr 1
    exact total_congr _ fun q hq => Function.update_of_ne (Nat.ne_of_lt hq) ..
  have hMoved : Function.update (slots table) p (slots table last) last =
      .live (table.buckets last) := by
    rw [← slots_of_ne hLast.2]
    rcases Nat.lt_or_eq_of_le hLe with hLt | rfl
    · exact Function.update_of_ne (Nat.ne_of_lt hLt) ..
    · exact Function.update_self ..
  have hCleared := contents_update_cleared (Nat.lt_succ_of_le hLe) hMoved Slot.entries_empty
  rw [hAhead, ← hSlots] at hCleared
  exact (Multiset.cons_inj_right _).mp hCleared

theorem contents_removed_of_lt {table' : Table K V} {last : Nat} (hLt : p < last) (hSlots :
    slots table' = Function.update (Function.update (slots table) p (slots table last)) last .empty) :
    contents (slots table') p = contents (slots table) p := by
  refine total_congr _ fun q hq => ?_
  rw [hSlots, Function.update_of_ne (Nat.ne_of_lt (hq.trans hLt)),
    Function.update_of_ne (Nat.ne_of_lt hq)]

theorem contents_succ_used (hUsed : used table p = true) :
    contents (slots table) (p + 1) = table.buckets p ::ₘ contents (slots table) p := by
  rw [contents, total_succ, slots_of_ne (used_iff.mp hUsed), Slot.entries_live, add_comm,
    Multiset.singleton_add]
  rfl

/-- The pair of a used bucket is ahead. -/
theorem Kept.exists_ahead {ahead : Multiset (K × V)} (h : Kept bp table stored)
    (hp : p < table.bucketsMask + 1) (hUsed : used table p = true)
    (hStored : stored = contents (slots table) p + ahead) :
    ∃ rest, ahead = table.buckets p ::ₘ rest := by
  refine Multiset.exists_cons_of_mem (Multiset.singleton_le.mp ?_)
  have hLe := contents_le (slots table) (Nat.succ_le_of_lt hp)
  rw [h.contents_eq, hStored, Nat.succ_eq_add_one, contents_succ_used hUsed,
    ← Multiset.singleton_add, add_comm, Multiset.add_le_add_iff_left] at hLe
  exact hLe

theorem Kept.ahead_eq_zero {ahead : Multiset (K × V)} (h : Kept bp table stored)
    (hStored : stored = contents (slots table) (table.bucketsMask + 1) + ahead) : ahead = 0 := by
  rw [h.contents_eq] at hStored
  exact left_eq_add.mp hStored

/-- One round of the loop: the pair of the bucket is behind the next iterator, if
it was not erased, and the pairs that were ahead are ahead. -/
theorem Sound.eraseOrPass_returns {rest : Multiset (K × V)} (h : Sound bp table stored)
    (hp : p ∈ table.occupied) (hStored : stored = contents (slots table) p + table.buckets p ::ₘ rest) :
    ∃ table₁ q, ReturnsTo (fun fuel => eraseOrPass bp drop fuel table (table.itrAt p none))
        (table₁, table₁.itrAt q none) ∧ table₁.bucketsMask = table.bucketsMask ∧
      q ≤ table₁.bucketsMask + 1 ∧ (q < table₁.bucketsMask + 1 → used table₁ q = true) ∧
      Sound bp table₁ (contents (slots table₁) q + rest) ∧ contents (slots table₁) q =
        contents (slots table) p + ({table.buckets p} : Multiset (K × V)).filter fun pair =>
          (!drop pair) = true := by
  have hMask := h.mask_ne_zero hp
  have hUsed : used table p = true := used_iff.mpr hp.2
  unfold eraseOrPass
  cases hDrop : drop (table.buckets p) with
  | false =>
      have hBehind : contents (slots table) (skip (used table) (table.bucketsMask + 1) (p + 1)) =
          contents (slots table) p + {table.buckets p} := by
        rw [contents_skip (h.lt_succ hp), contents_succ_used hUsed, ← Multiset.singleton_add,
          add_comm]
      have hDrop' : drop (table.buckets (table.itrAt p none).data) = false := hDrop
      simp only [hDrop', Bool.false_eq_true, if_false]
      refine ⟨table, _, (next_returns (h.stopper hMask) hp.1 none).map _, rfl,
        skip_le (h.lt_succ hp), used_skip (p + 1), ?_, ?_⟩
      · rw [hBehind, add_assoc, Multiset.singleton_add, ← hStored]
        exact h
      · rw [hBehind, Multiset.filter_singleton, hDrop]
        rfl
  | true =>
      have hAt : PointsAt bp table (table.itrAt p none) p :=
        ⟨rfl, rfl, rfl, hp, fun home hHome => by cases hHome⟩
      obtain ⟨table₁, last, left, hErase, hLeft, hSound, hMask₁, hLast, _, hSlots⟩ :=
        h.eraseItrRaw_returns hAt
      have hItr : table.itrAt p none = table₁.itrAt p none := by
        rw [Table.itrAt, Table.itrAt, hMask₁]
      have hDrop' : drop (table.buckets (table.itrAt p none).data) = true := hDrop
      rw [hStored, Multiset.add_cons, Multiset.cons_inj_right] at hLeft
      rw [← hLeft] at hSound
      simp only [hDrop', if_true, Multiset.filter_singleton, hDrop, Bool.not_true,
        Bool.false_eq_true, if_false, Multiset.empty_eq_zero, add_zero]
      by_cases hFar : last > p
      · have hBehind := contents_removed_of_lt hFar hSlots
        refine ⟨table₁, p, hErase.bind ?_, hMask₁, hMask₁ ▸ (h.lt_succ hp).le, fun _ => ?_,
          hBehind ▸ hSound, hBehind⟩
        · simp only [hFar, decide_true, Bool.not_true, Bool.false_eq_true, if_false, hItr]
          exact ReturnsTo.pure _
        · rw [used_iff, ← slots_eq_empty_iff.ne, hSlots, Function.update_of_ne (Nat.ne_of_lt hFar),
            Function.update_self, slots_eq_empty_iff.ne]
          exact hLast.2
      · have hp₁ : p + 1 ≤ table₁.bucketsMask + 1 := hMask₁ ▸ h.lt_succ hp
        have hBehind := (contents_skip hp₁).trans
          (contents_removed hp hLast (Nat.le_of_not_lt hFar) hSlots)
        refine ⟨table₁, _, hErase.bind ?_, hMask₁, skip_le hp₁, used_skip (p + 1),
          hBehind.symm ▸ hSound, hBehind⟩
        simp only [hFar, decide_false, Bool.not_false, if_true, hItr]
        have hMask' : table₁.bucketsMask ≠ 0 := hMask₁ ▸ hMask
        exact (next_returns (hSound.stopper hMask') (Nat.le_of_succ_le_succ hp₁) none).bind
          (ReturnsTo.pure _)

/-- From a bucket on, the loop visits the pairs that are ahead and keeps those
that it does not erase. The ones before the bucket stay. -/
theorem Sound.eraseWhere_returns {ahead : Multiset (K × V)} (h : Sound bp table stored)
    (hMask : table.bucketsMask ≠ 0) (hp : p ≤ table.bucketsMask + 1)
    (hUsed : p < table.bucketsMask + 1 → used table p = true)
    (hStored : stored = contents (slots table) p + ahead) :
    ∃ visits table', ReturnsTo (fun fuel => eraseWhere bp drop fuel table (table.itrAt p none))
        (visits, table') ∧ (visits : Multiset (K × V)) = ahead ∧
      Sound bp table'
        (contents (slots table) p + ahead.filter fun pair => (!drop pair) = true) := by
  induction hn : ahead.card generalizing table stored p ahead with
  | zero =>
      obtain rfl := Multiset.card_eq_zero.mp hn
      have hEnd : p = table.bucketsMask + 1 := by
        by_contra hNe
        have hLt := Nat.lt_of_le_of_ne hp hNe
        obtain ⟨rest, hRest⟩ := h.exists_ahead hLt (hUsed hLt) hStored
        exact Multiset.zero_ne_cons hRest
      refine ⟨[], table, ReturnsTo.of_succ ?_, rfl, ?_⟩
      · simp only [eraseWhere, isEnd_itrAt, hEnd, decide_true, if_true]
        exact ReturnsTo.pure _
      · rw [Multiset.filter_zero, ← hStored]
        exact h
  | succ n ih =>
      have hLt : p < table.bucketsMask + 1 := by
        refine Nat.lt_of_le_of_ne hp fun hEq => ?_
        rw [hEq] at hStored
        rw [h.ahead_eq_zero hStored] at hn
        cases hn
      have hUsed := hUsed hLt
      have hOccupied : p ∈ table.occupied := ⟨Nat.le_of_lt_succ hLt, used_iff.mp hUsed⟩
      obtain ⟨rest, rfl⟩ := h.exists_ahead hLt hUsed hStored
      rw [Multiset.card_cons] at hn
      have hEnd : isEnd (table.itrAt p none) = false := by
        rw [isEnd_itrAt, decide_eq_false (Nat.ne_of_lt hLt)]
      obtain ⟨table₁, q, hReturns, hMask₁, hq, hUsed₁, hSound, hBehind⟩ :=
        h.eraseOrPass_returns hOccupied hStored
      obtain ⟨visits, table', hLoop, hVisits, hLast⟩ :=
        ih hSound (hMask₁ ▸ hMask) hq hUsed₁ rfl (Nat.succ.inj hn)
      refine ⟨table.buckets p :: visits, table', ReturnsTo.of_succ ?_, ?_, ?_⟩
      · simp only [eraseWhere, hEnd, Bool.false_eq_true, if_false]
        refine hReturns.succ.bind ?_
        exact hLoop.bind (ReturnsTo.pure _)
      · rw [← Multiset.cons_coe, hVisits]
      · rw [hBehind, add_assoc, ← Multiset.filter_add, Multiset.singleton_add] at hLast
        exact hLast

/-- Erasing during an iteration disturbs neither: every pair is visited once, and
afterwards the lookups find just the pairs that were not erased. -/
theorem verstable_eraseWhere {fuel : Nat} {calls : List (Call K V)}
    (h : run maxLoad bucketSize memory bp fuel calls = some (true, table))
    (drop : K × V → Bool) :
    ∃ visits table', ReturnsTo (fun fuel =>
        (first fuel table).bind (eraseWhere bp drop fuel table)) (visits, table') ∧
      bp.Lists visits (bp.mapOf (calls.map Call.op)) ∧
      ∀ key, ∃ itr, ReturnsTo (fun fuel => get bp fuel table' key) itr ∧
        pairAt table' itr = (bp.mapOf (calls.map Call.op) key).filter fun pair => !drop pair := by
  obtain ⟨stored, hSound, _, hFinds⟩ := run_returned h
  suffices hLoop : ∃ visits table', ReturnsTo (fun fuel =>
      (first fuel table).bind (eraseWhere bp drop fuel table)) (visits, table') ∧
      (visits : Multiset (K × V)) = stored ∧
      Sound bp table' (stored.filter fun pair => (!drop pair) = true) by
    obtain ⟨visits, table', hReturns, rfl, hSound'⟩ := hLoop
    exact ⟨visits, table', hReturns, hFinds.lists hSound.nodup,
      hSound'.lookup_returns (hFinds.filter fun pair => !drop pair)⟩
  unfold first
  by_cases hCount : table.keyCount = 0
  · obtain rfl := Multiset.card_eq_zero.mp (hSound.keyCount_eq.symm.trans hCount)
    simp only [if_pos hCount, Option.bind_some]
    exact ⟨[], table, ReturnsTo.of_succ (ReturnsTo.pure _), rfl, hSound⟩
  · have hMask := hSound.mask_ne_zero_of_count hCount
    have hNone : contents (slots table) (skip (used table) (table.bucketsMask + 1) 0) = 0 :=
      contents_skip (Nat.zero_le _)
    have hBegin : ReturnsTo (fun fuel => fastForward fuel table (table.itrAt 0 none))
        (table.itrAt (skip (used table) (table.bucketsMask + 1) 0) none) :=
      (Filter.eventually_gt_atTop _).mono fun _ hFuel =>
        fastForward_skip (hSound.stopper hMask) (Nat.zero_le _) none hFuel
    have hStored : stored = contents (slots table)
        (skip (used table) (table.bucketsMask + 1) 0) + stored := by
      rw [hNone, zero_add]
    obtain ⟨visits, table', hReturns, hVisits, hSound'⟩ :=
      hSound.eraseWhere_returns hMask (skip_le (Nat.zero_le _)) (used_skip 0) hStored
    rw [hNone, zero_add] at hSound'
    simp only [if_neg hCount]
    exact ⟨visits, table', hBegin.bind hReturns, hVisits, hSound'⟩

theorem verstable_eraseWhere_sample : ∃ table visits table',
    run (7 / 8) 16 (fun _ => (0, 0)) (Blueprint.ofEq BitVec.toNat 0) 20 sample =
        some (true, table) ∧
      ReturnsTo (fun fuel => (first fuel table).bind (eraseWhere (Blueprint.ofEq BitVec.toNat 0)
        (fun pair => pair.1 == 9) fuel table)) (visits, table') ∧
      (Blueprint.ofEq BitVec.toNat 0).Lists visits
        ((Blueprint.ofEq BitVec.toNat 0).mapOf (sample.map Call.op)) := by
  obtain ⟨table, hRun⟩ := exists_sample
  obtain ⟨visits, table', hReturns, hLists, _⟩ := verstable_eraseWhere hRun fun pair => pair.1 == 9
  exact ⟨table, visits, table', hRun, hReturns, hLists⟩

end EraseWhere

end HashBench.Verstable
