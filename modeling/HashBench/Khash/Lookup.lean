import HashBench.Khash.Table
import HashBench.Library.Counted

/-! The buckets of a table as an open-addressing table, and the probe loops
over it. They end in every table, also in one without an empty bucket. -/
namespace HashBench.Khash

open Search Triangular OpenAddressing Memory

variable {K V : Type}

/-- What the flags of a bucket say of its pair. -/
def slotOf (flag : Flag) (key : K) (val : V) : Slot (K × V) :=
  if flag.isempty then .empty else if flag.isdel then .deleted else .live (key, val)

/-- The buckets under these flags. -/
def view (flags : Buffer Flag) (keys : Buffer K) (vals : Buffer V) (p : Nat) : Slot (K × V) :=
  slotOf (flags.cell p) (keys.cell p) (vals.cell p)

/-- The buckets of a table. -/
def slots (h : Table K V) : Nat → Slot (K × V) := view h.flags h.keys h.vals

/-- The buckets that the probe for a pair inspects. -/
def slotSeq (bp : Blueprint K V) (mask : Nat) (e : K × V) : Nat → Nat := probe mask (hashOf bp e.1)

/-- The numbers of buckets a table can have. -/
def Buckets (n : Nat) : Prop := n = 0 ∨ ∃ k, 2 ≤ k ∧ k ≤ 31 ∧ n = 2 ^ k

section Slots

variable {flag : Flag} {key : K} {val : V}

theorem slotOf_isEmpty : (slotOf flag key val).isEmpty = flag.isempty := by
  unfold slotOf
  split_ifs with hEmpty hDel <;> simp [*]

theorem slotOf_eq_empty_iff : slotOf flag key val = .empty ↔ flag.isempty = true := by
  have hEmpty : (slotOf flag key val).isEmpty = flag.isempty := slotOf_isEmpty
  rw [← hEmpty, Slot.isEmpty_iff]

theorem slotOf_eq_deleted_iff :
    slotOf flag key val = .deleted ↔ flag.isempty = false ∧ flag.isdel = true := by
  unfold slotOf
  split_ifs with hEmpty hDel <;> simp [*]

theorem slotOf_eq_live_iff {e : K × V} :
    slotOf flag key val = .live e ↔ flag.iseither = false ∧ (key, val) = e := by
  unfold slotOf Flag.iseither
  split_ifs with hEmpty hDel <;> simp [*]

theorem slotOf_isLive : (slotOf flag key val).isLive = !flag.iseither := by
  unfold slotOf Flag.iseither
  split_ifs with hEmpty hDel <;> simp [*]

/-- A bucket without a pair is so whatever lies in it. -/
theorem slotOf_congr (h : flag.iseither = true) (key key' : K) (val val' : V) :
    slotOf flag key val = slotOf flag key' val' := by
  unfold slotOf
  split_ifs with hEmpty hDel
  · rfl
  · rfl
  · simp [Flag.iseither, hEmpty, hDel] at h

theorem slotOf_free (h : flag.iseither = true) : (slotOf flag key val).entries = 0 := by
  unfold slotOf
  split_ifs with hEmpty hDel
  · rfl
  · rfl
  · simp [Flag.iseither, hEmpty, hDel] at h

theorem slotOf_both (key : K) (val : V) : slotOf Flag.setIsbothFalse key val = .live (key, val) :=
  rfl

theorem slotOf_del (h : flag.isempty = false) : slotOf flag.setIsdelTrue key val = .deleted := by
  simp [slotOf, Flag.setIsdelTrue, h]

end Slots

section View

variable {flags : Buffer Flag} {keys : Buffer K} {vals : Buffer V} {p : Nat}

/-- Writing the flag of a bucket changes what is said of its pair. -/
theorem view_set_flags (flag : Flag) : view (flags.set p flag) keys vals =
    Function.update (view flags keys vals) p (slotOf flag (keys.cell p) (vals.cell p)) := by
  funext q
  by_cases hq : q = p
  · subst hq
    simp [view]
  · simp [view, hq, Buffer.set_cell_of_ne]

/-- Writing a pair and its flag changes a bucket. -/
theorem view_set (flag : Flag) (key : K) (val : V) :
    view (flags.set p flag) (keys.set p key) (vals.set p val) =
      Function.update (view flags keys vals) p (slotOf flag key val) := by
  funext q
  by_cases hq : q = p
  · subst hq
    simp [view]
  · simp [view, hq, Buffer.set_cell_of_ne]

/-- A pair written to a bucket whose flags deny it is not seen. -/
theorem view_set_hidden (h : (flags.cell p).iseither = true) (key : K) (val : V) :
    view flags (keys.set p key) (vals.set p val) = view flags keys vals := by
  funext q
  by_cases hq : q = p
  · subst hq
    exact slotOf_congr h ..
  · simp [view, hq, Buffer.set_cell_of_ne]

/-- A value written to a bucket with a pair replaces the value of the pair. -/
theorem view_set_vals {e : K × V} (h : view flags keys vals p = .live e) (val : V) :
    view flags keys (vals.set p val) =
      Function.update (view flags keys vals) p (.live (e.1, val)) := by
  funext q
  by_cases hq : q = p
  · subst hq
    obtain ⟨hNeither, rfl⟩ := slotOf_eq_live_iff.mp h
    rw [Function.update_self]
    exact slotOf_eq_live_iff.mpr ⟨hNeither, by simp⟩
  · simp [view, hq, Buffer.set_cell_of_ne]

end View

/-- The stored keys, up to comparison. -/
def classes (bp : Blueprint K V) (stored : Multiset (K × V)) : Multiset bp.Class :=
  stored.map fun e => bp.cls e.1

@[simp] theorem classes_cons (bp : Blueprint K V) (e : K × V) (stored : Multiset (K × V)) :
    classes bp (e ::ₘ stored) = bp.cls e.1 ::ₘ classes bp stored := Multiset.map_cons ..

theorem mem_classes {bp : Blueprint K V} {stored : Multiset (K × V)} {key : K} :
    bp.cls key ∈ classes bp stored ↔ ∃ e ∈ stored, bp.cmprKeys e.1 key = true := by
  simp only [classes, Multiset.mem_map, Blueprint.cls_eq_iff]

theorem notMem_classes {bp : Blueprint K V} {stored : Multiset (K × V)} {key : K} :
    bp.cls key ∉ classes bp stored ↔ ∀ e ∈ stored, bp.cmprKeys e.1 key = false := by
  rw [mem_classes]
  simp

/-- A table between two calls. -/
structure Sound (maxLoadFactor : ℚ) (bp : Blueprint K V) (h : Table K V)
    (stored : Multiset (K × V)) : Prop where
  buckets : Buckets h.nBuckets
  flags_size : h.flags.size = h.nBuckets
  keys_size : h.keys.size = h.nBuckets
  vals_size : h.vals.size = h.nBuckets
  counted : Counted (slotSeq bp (khintPred h.nBuckets)) (slots h) h.nBuckets h.nOccupied stored
  size_eq : h.size = stored.card
  nodup : (classes bp stored).Nodup
  upperBound_eq : h.upperBound = upperBoundOf maxLoadFactor h.nBuckets

/-- How a probe for a key ends: at its pair, at an empty bucket, or after all
buckets, of which none is empty. -/
inductive ProbeEnd (bp : Blueprint K V) (h : Table K V) (stored : Multiset (K × V)) (key : K)
    (j : Nat) : Prop where
  | found (e : K × V) (hNot : ¬ Back (probeSeq bp h key) j) (hMem : e ∈ stored)
      (hLive : slots h (probeSeq bp h key j) = .live e) (hEq : bp.cmprKeys e.1 key = true)
  | missed (hNot : ¬ Back (probeSeq bp h key) j) (hEmpty : slots h (probeSeq bp h key j) = .empty)
      (hAbsent : ∀ e ∈ stored, bp.cmprKeys e.1 key = false)
  | full (hBack : Back (probeSeq bp h key) j) (hFull : ∀ p < h.nBuckets, slots h p ≠ .empty)
      (hAbsent : ∀ e ∈ stored, bp.cmprKeys e.1 key = false)

namespace Sound

variable {maxLoadFactor : ℚ} {bp : Blueprint K V} {h : Table K V} {stored : Multiset (K × V)}
  {key : K} {p : Nat}

theorem mask_succ (hSound : Sound maxLoadFactor bp h stored) (hPos : h.nBuckets ≠ 0) :
    ∃ k, khintPred h.nBuckets + 1 = 2 ^ k ∧ h.nBuckets = 2 ^ k := by
  obtain ⟨k, _, _, hk⟩ := hSound.buckets.resolve_left hPos
  exact ⟨k, by rw [khintPred, if_neg hPos, Nat.sub_add_cancel (Nat.pos_of_ne_zero hPos), hk], hk⟩

theorem nBuckets_le (hSound : Sound maxLoadFactor bp h stored) : h.nBuckets ≤ 2 ^ 31 := by
  rcases hSound.buckets with hZero | ⟨k, _, hk, hEq⟩
  · omega
  · exact hEq ▸ Nat.pow_le_pow_right Nat.zero_lt_two hk

theorem filled_le (hSound : Sound maxLoadFactor bp h stored) : h.nOccupied ≤ h.nBuckets :=
  hSound.counted.filled_eq ▸ total_filled_le ..

theorem size_le (hSound : Sound maxLoadFactor bp h stored) : h.size ≤ h.nOccupied :=
  hSound.size_eq ▸ hSound.counted.card_le

theorem probe_lt (hSound : Sound maxLoadFactor bp h stored) (hPos : h.nBuckets ≠ 0) (hash j : Nat) :
    probe (khintPred h.nBuckets) hash j < h.nBuckets := by
  obtain ⟨k, hMask, hk⟩ := hSound.mask_succ hPos
  have hLt := Triangular.probe_lt hMask hash j
  omega

/-- What the condition of a probe loop is. -/
theorem passes_eq (hSound : Sound maxLoadFactor bp h stored) (key : K) (hp : p < h.nBuckets) :
    passes bp h key p = .ok (!(slots h p).stops fun e => bp.cmprKeys e.1 key) := by
  rw [passes, Buffer.read_of_lt Fault.flags (hSound.flags_size ▸ hp),
    Buffer.read_of_lt Fault.keys (hSound.keys_size ▸ hp)]
  cases hEmpty : (h.flags.cell p).isempty with
  | true => simp [slots, view, slotOf, hEmpty, bind, Except.bind, pure, Except.pure]
  | false =>
      cases hDel : (h.flags.cell p).isdel <;>
        simp [slots, view, slotOf, hEmpty, hDel, bind, Except.bind, pure, Except.pure]

theorem stops_eq (hSound : Sound maxLoadFactor bp h stored) (key : K) (hp : p < h.nBuckets) :
    stops bp h key p = (slots h p).stops fun e => bp.cmprKeys e.1 key := by
  rw [stops, hSound.passes_eq key hp]
  cases (slots h p).stops fun e => bp.cmprKeys e.1 key <;> rfl

/-- A key that is stored is met on its probe before an empty bucket. -/
theorem absent_of_empty (hSound : Sound maxLoadFactor bp h stored) {j : Nat}
    (hBefore : ∀ i < j, ((slots h (probeSeq bp h key i)).stops fun e => bp.cmprKeys e.1 key) = false)
    (hEmpty : slots h (probeSeq bp h key j) = .empty) :
    ∀ e ∈ stored, bp.cmprKeys e.1 key = false := by
  intro e he
  rw [Bool.eq_false_iff]
  intro hEq
  obtain ⟨p, hp, hLive⟩ := hSound.counted.mem_stored.mp he
  have hSeq : slotSeq bp (khintPred h.nBuckets) e = probeSeq bp h key := by
    rw [slotSeq, probeSeq, hashOf, hashOf, bp.hashKey_congr hEq]
  have hMiss : bp.cmprKeys e.1 key = false :=
    hSound.counted.probed.lookup_sound hBefore hEmpty hp hLive hSeq
  simp [hEq] at hMiss

/-- Before it is back at its start, a probe has inspected every bucket. -/
theorem exists_probeSeq (hSound : Sound maxLoadFactor bp h stored) {j : Nat}
    (hBack : Back (probeSeq bp h key) j) (hp : p < h.nBuckets) :
    ∃ i < j, probeSeq bp h key i = p := by
  obtain ⟨k, hMask, hk⟩ := hSound.mask_succ (Nat.ne_of_gt (Nat.zero_lt_of_lt hp))
  exact exists_probe_lt hMask hBack.1 hBack.2 (by omega)

/-- A probe that ends at a bucket has not been there. -/
theorem not_back {j : Nat}
    (hBefore : ∀ i < j, ((slots h (probeSeq bp h key i)).stops fun e => bp.cmprKeys e.1 key) = false)
    (hStop : ((slots h (probeSeq bp h key j)).stops fun e => bp.cmprKeys e.1 key) = true) :
    ¬ Back (probeSeq bp h key) j := by
  rintro ⟨hj, hEq⟩
  rw [hEq, hBefore 0 hj] at hStop
  cases hStop

/-- A probe loop that returned. -/
theorem probeFor_returned (hSound : Sound maxLoadFactor bp h stored) (hPos : h.nBuckets ≠ 0)
    {σ : Type} {update : Nat → σ → σ} {acc : σ} {fuel : Nat} {r : Except Fault (Nat × Bool × σ)}
    (hRun : (probeFor bp update acc fuel h key).run = some r) :
    ∃ j, r = .ok (probeSeq bp h key j, decide (Back (probeSeq bp h key) j),
        trail update (probeSeq bp h key) j acc) ∧
      (∀ i < j, ((slots h (probeSeq bp h key i)).stops fun e => bp.cmprKeys e.1 key) = false) ∧
      ProbeEnd bp h stored key j := by
  obtain ⟨⟨j, _⟩, hSearch, rfl⟩ := Option.map_eq_some_iff.mp hRun
  obtain ⟨hBefore, hAt, rfl⟩ := searchCircle_eq_some hSearch
  have hLt (i : Nat) : probeSeq bp h key i < h.nBuckets := hSound.probe_lt hPos ..
  simp only [hSound.stops_eq key (hLt _)] at hBefore hAt
  refine ⟨j, ?_, hBefore, ?_⟩
  · dsimp only
    split_ifs with hBack
    · rw [decide_eq_true hBack]
    · rw [hSound.passes_eq key (hLt j), decide_eq_false hBack]
      rfl
  · rcases hAt with hBack | hStop
    · refine .full hBack (fun p hp hEmpty => ?_) fun e he => ?_
      · obtain ⟨i, hi, rfl⟩ := hSound.exists_probeSeq hBack hp
        exact ne_empty_of_stops_eq_false (hBefore i hi) hEmpty
      · obtain ⟨p, hp, hLive⟩ := hSound.counted.mem_stored.mp he
        obtain ⟨i, hi, rfl⟩ := hSound.exists_probeSeq hBack hp
        simpa [hLive] using hBefore i hi
    · cases hSlot : slots h (probeSeq bp h key j) with
      | empty => exact .missed (not_back hBefore hStop) hSlot (hSound.absent_of_empty hBefore hSlot)
      | deleted => simp [hSlot] at hStop
      | live e =>
          exact .found e (not_back hBefore hStop)
            (hSound.counted.mem_stored.mpr ⟨_, hLt j, hSlot⟩) hSlot (by simpa [hSlot] using hStop)

/-- A probe loop ends, since triangular probing comes back to its start. -/
theorem probeFor_returns (hSound : Sound maxLoadFactor bp h stored) (hPos : h.nBuckets ≠ 0)
    {σ : Type} (update : Nat → σ → σ) (acc : σ) (key : K) :
    Returns fun fuel => probeFor bp update acc fuel h key := by
  obtain ⟨k, hMask, _⟩ := hSound.mask_succ hPos
  obtain ⟨found, hFound⟩ := searchCircle_returns (stops bp h key) update
    (exists_probe_eq hMask (hashOf bp key)) acc
  exact ⟨_, hFound.map _⟩

/-- The search returns the bucket of the key, or the number of buckets. -/
theorem khGet_returned (hSound : Sound maxLoadFactor bp h stored) {fuel : Nat}
    {r : Except Fault Nat} (hRun : (khGet bp fuel h key).run = some r) :
    ∃ itr, r = .ok itr ∧
      ((itr < h.nBuckets ∧ ∃ e ∈ stored, slots h itr = .live e ∧ bp.cmprKeys e.1 key = true) ∨
        itr = h.nBuckets ∧ ∀ e ∈ stored, bp.cmprKeys e.1 key = false) := by
  unfold khGet at hRun
  by_cases hPos : h.nBuckets = 0
  · rw [if_neg (not_not.mpr hPos)] at hRun
    refine ⟨0, (Option.some.inj hRun).symm, Or.inr ⟨hPos.symm, fun e he => ?_⟩⟩
    obtain ⟨p, hp, _⟩ := hSound.counted.mem_stored.mp he
    omega
  rw [if_pos hPos] at hRun
  rcases run_bind_eq_some.mp hRun with ⟨e, hProbe, _⟩ | ⟨⟨i, isBack, _⟩, hProbe, hRest⟩
  · obtain ⟨_, hOk, _⟩ := hSound.probeFor_returned hPos hProbe
    cases hOk
  · obtain ⟨j, hOk, _, hEnd⟩ := hSound.probeFor_returned hPos hProbe
    cases hOk
    have hLt : probeSeq bp h key j < h.nBuckets := hSound.probe_lt hPos ..
    have hRead := Buffer.read_of_lt Fault.flags (hSound.flags_size ▸ hLt)
    cases hEnd with
    | found e hNot hMem hLive hEq =>
        refine ⟨_, ?_, Or.inl ⟨hLt, e, hMem, hLive, hEq⟩⟩
        simpa [hNot, hRead, check, (slotOf_eq_live_iff.mp hLive).1] using hRest.symm
    | missed hNot hEmpty hAbsent =>
        refine ⟨_, ?_, Or.inr ⟨rfl, hAbsent⟩⟩
        simpa [hNot, hRead, check, Flag.iseither, slotOf_eq_empty_iff.mp hEmpty] using hRest.symm
    | full hBack _ hAbsent =>
        refine ⟨_, ?_, Or.inr ⟨rfl, hAbsent⟩⟩
        simpa [hBack] using hRest.symm

theorem khGet_returns (hSound : Sound maxLoadFactor bp h stored) (key : K) :
    Returns fun fuel => khGet bp fuel h key := by
  unfold khGet
  by_cases hPos : h.nBuckets ≠ 0
  · simp only [if_pos hPos]
    refine (hSound.probeFor_returns hPos _ _ key).andThen fun found _ => ?_
    by_cases hBack : found.2.1 = true
    · simp only [if_pos hBack]
      exact .pure _
    · simp only [if_neg hBack]
      exact (Returns.mk _).andThen fun _ _ => .pure _
  · simp only [if_neg hPos]
    exact .pure 0

end Sound

end HashBench.Khash
