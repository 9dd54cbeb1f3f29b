import HashBench.Khash.Operations

/-! The iterators of the shim. Those of the search and of the increment point at
a pair whenever they are valid. The first iterator does not. -/
namespace HashBench.Khash

open Search Iteration OpenAddressing Memory

variable {K V : Type}

/-- The bucket holds a pair: it is neither empty nor deleted. -/
def Occupied (h : Table K V) (itr : Nat) : Prop := itr < h.nBuckets ∧ khExist h itr = true

/-- Whether some bucket holds this key. -/
def holdsKey (bp : Blueprint K V) (h : Table K V) (key : K) : Bool :=
  (List.range h.nBuckets).any fun p => khExist h p && bp.cmprKeys (Shim.getKeyFromItr h p) key

/-- What a shim promises of its iterators. -/
structure IteratorContract (bp : Blueprint K V) (h : Table K V) : Prop where
  begin_iff : Shim.isItrValid h (Shim.beginItr h) = true ↔ ∃ itr, Occupied h itr
  begin_occupied : Shim.isItrValid h (Shim.beginItr h) = true → Occupied h (Shim.beginItr h)
  find_occupied : ∀ fuel key itr, (Shim.find bp fuel h key).run = some (.ok itr) →
    Shim.isItrValid h itr = true → Occupied h itr
  increment_occupied : ∀ itr < h.nBuckets, Shim.isItrValid h (Shim.incrementItr h itr) = true →
    Occupied h (Shim.incrementItr h itr)
  scan : ∃ order, bp.Enumerates order (holdsKey bp h) ∧
    Visits (Shim.isItrValid h) (Shim.incrementItr h) (Shim.getKeyFromItr h) (Shim.beginItr h) order

namespace Sound

variable {maxLoadFactor : ℚ} {bp : Blueprint K V} {h : Table K V} {stored : Multiset (K × V)}

theorem khExist_iff {p : Nat} : khExist h p = true ↔
    slots h p = .live (h.keys.cell p, h.vals.cell p) := by
  rw [khExist, slots, view, slotOf_eq_live_iff, Bool.not_eq_true']
  exact ⟨fun hNeither => ⟨hNeither, rfl⟩, And.left⟩

/-- No key is in two buckets. -/
theorem once (hSound : Sound maxLoadFactor bp h stored) {p q : Nat} (hp : p < h.nBuckets)
    (hq : q < h.nBuckets) (hLive : khExist h p = true) (hLive' : khExist h q = true)
    (hEq : bp.cmprKeys (h.keys.cell p) (h.keys.cell q) = true) : p = q := by
  have hNodup := hSound.nodup
  rw [classes, ← hSound.counted.contents_eq] at hNodup
  exact slot_unique hNodup hp hq (khExist_iff.mp hLive) (khExist_iff.mp hLive')
    (bp.cls_eq_iff.mpr hEq)

theorem isItrValid_of_le {itr : Nat} (hItr : itr ≤ h.nBuckets) :
    Shim.isItrValid h itr = decide (itr < h.nBuckets) :=
  decide_eq_decide.mpr ⟨fun hNe => Nat.lt_of_le_of_ne hItr hNe, Nat.ne_of_lt⟩

/-- From a bucket with a pair, or from the end, the scan visits the pairs of
the buckets from there on. -/
theorem visits {itr : Nat} (hItr : itr ≤ h.nBuckets)
    (hFirst : itr < h.nBuckets → khExist h itr = true) :
    Visits (Shim.isItrValid h) (Shim.incrementItr h) (Shim.getKeyFromItr h) itr
      ((usedFrom (khExist h) h.nBuckets itr).map (Shim.getKeyFromItr h)) := by
  have hVisits : Visits (fun i => decide (i < h.nBuckets)) (Shim.incrementItr h)
      (Shim.getKeyFromItr h) itr
      ((usedFrom (khExist h) h.nBuckets itr).map (Shim.getKeyFromItr h)) :=
    visits_usedFrom (Shim.getKeyFromItr h) (fun _ => rfl) (fun _ => rfl) hFirst
  refine hVisits.congr_valid (· ≤ h.nBuckets) hItr (fun i _ hValid => ?_)
    fun i hi => isItrValid_of_le hi
  exact skip_le (of_decide_eq_true hValid)

theorem holdsKey_iff (bp : Blueprint K V) (h : Table K V) (key : K) : holdsKey bp h key = true ↔
    ∃ p < h.nBuckets, khExist h p = true ∧ bp.cmprKeys (Shim.getKeyFromItr h p) key = true := by
  simp [holdsKey]

/-- The pairs of all buckets list the keys of the table. -/
theorem enumerates (hSound : Sound maxLoadFactor bp h stored) :
    bp.Enumerates ((usedFrom (khExist h) h.nBuckets 0).map (Shim.getKeyFromItr h))
      (holdsKey bp h) :=
  bp.enumerates_used (khExist h) h.nBuckets (Shim.getKeyFromItr h)
    (fun _ hp _ hq hLive hLive' hMatch => hSound.once hp hq hLive hLive' hMatch)
    (holdsKey_iff bp h)

/-- The contract holds of a table without buckets and of one whose first bucket
holds a pair, and of no other. -/
theorem contract_iff (hSound : Sound maxLoadFactor bp h stored) :
    IteratorContract bp h ↔ h.nBuckets = 0 ∨ khExist h 0 = true := by
  constructor
  · intro hContract
    by_cases hZero : h.nBuckets = 0
    · exact Or.inl hZero
    · exact Or.inr (hContract.begin_occupied (decide_eq_true (Ne.symm hZero))).2
  · intro hFirst
    have hBegin (hValid : Shim.isItrValid h (Shim.beginItr h) = true) :
        Occupied h (Shim.beginItr h) := by
      have hPos : h.nBuckets ≠ 0 := (of_decide_eq_true hValid).symm
      exact ⟨Nat.pos_of_ne_zero hPos, hFirst.resolve_left hPos⟩
    refine ⟨⟨fun hValid => ⟨_, hBegin hValid⟩, ?_⟩, hBegin, ?_, ?_, ?_⟩
    · rintro ⟨itr, hItr, _⟩
      exact decide_eq_true (Nat.ne_of_lt (Nat.zero_lt_of_lt hItr))
    · intro fuel key itr hFind hValid
      obtain ⟨_, hOk, ⟨hItr, e, _, hLive, _⟩ | ⟨hEnd, _⟩⟩ := hSound.khGet_returned hFind
      · cases hOk
        exact ⟨hItr, by rw [khExist, (slotOf_eq_live_iff.mp hLive).1]; rfl⟩
      · cases hOk
        exact absurd hEnd (of_decide_eq_true hValid)
    · intro itr hItr hValid
      have hLe : Shim.incrementItr h itr ≤ h.nBuckets := skip_le hItr
      rw [isItrValid_of_le hLe, decide_eq_true_iff] at hValid
      exact ⟨hValid, used_skip _ hValid⟩
    · exact ⟨_, hSound.enumerates, visits (Nat.zero_le _) fun hPos => hFirst.resolve_left hPos.ne'⟩

end Sound

/-- In every table that a run reaches, the iterators keep their contract exactly
if there is no bucket or the first one holds a pair. -/
theorem khash_iterator_iff (maxLoadFactor : ℚ) (memory : Nat → K × V) (bp : Blueprint K V)
    (fuel : Nat) (ops : List (Op K)) {h : Table K V}
    (hRun : (Shim.run maxLoadFactor memory bp fuel ops).run = some (.ok h)) :
    IteratorContract bp h ↔ h.nBuckets = 0 ∨ khExist h 0 = true := by
  obtain ⟨stored, hSound⟩ := run_sound hRun
  exact hSound.contract_iff

/-- A table with the key 3 alone, which is not in its first bucket. -/
theorem khash_iterator_iff_insert : ∃ h : Table Nat Unit,
    (Shim.run (7 / 8) (fun _ => (0, ())) (Blueprint.ofEq id ()) 4 [.insert 3]).run =
        some (.ok h) ∧
      (IteratorContract (Blueprint.ofEq id ()) h ↔ h.nBuckets = 0 ∨ khExist h 0 = true) := by
  have hReturns : ((Shim.run (7 / 8) (fun _ => (0, ())) (Blueprint.ofEq id ()) 4
      [.insert 3]).run.map fun r => r.isOk) = some true := by decide +kernel
  obtain ⟨r, hRun, hOk⟩ := Option.map_eq_some_iff.mp hReturns
  cases r with
  | error fault => cases hOk
  | ok h => exact ⟨h, hRun, khash_iterator_iff (7 / 8) _ _ 4 _ hRun⟩

/-- After a key is inserted and erased, the first iterator is valid in a table
without keys. -/
theorem khash_begin_unoccupied : ∃ h : Table Nat Unit,
    (Shim.run (7 / 8) (fun _ => (0, ())) (Blueprint.ofEq id ()) 4 [.insert 0, .erase 0]).run =
        some (.ok h) ∧
      Shim.isItrValid h (Shim.beginItr h) = true ∧ (¬ ∃ itr, Occupied h itr) ∧
      ¬ IteratorContract (Blueprint.ofEq id ()) h := by
  have hBuckets : ((Shim.run (7 / 8) (fun _ => (0, ())) (Blueprint.ofEq id ()) 4
      [.insert 0, .erase 0]).run.map fun r => r.toOption.map fun h =>
        (h.nBuckets, (List.range 4).any (khExist h))) = some (some (4, false)) := by decide +kernel
  obtain ⟨r, hRun, hOk⟩ := Option.map_eq_some_iff.mp hBuckets
  cases r with
  | error fault => cases hOk
  | ok h =>
      obtain ⟨hFour, hNone⟩ : h.nBuckets = 4 ∧ (List.range 4).any (khExist h) = false := by
        simpa [Except.toOption] using hOk
      have hNonzero : 0 ≠ h.nBuckets := by omega
      have hValid : Shim.isItrValid h (Shim.beginItr h) = true := decide_eq_true hNonzero
      have hUnoccupied : ¬ ∃ itr, Occupied h itr := by
        rintro ⟨itr, hItr, hLive⟩
        rw [List.any_eq_false] at hNone
        exact hNone itr (List.mem_range.mpr (hFour ▸ hItr)) hLive
      exact ⟨h, hRun, hValid, hUnoccupied,
        fun hContract => hUnoccupied (hContract.begin_iff.mp hValid)⟩

end HashBench.Khash
