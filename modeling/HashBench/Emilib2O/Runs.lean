import HashBench.Emilib2O.Rehash

/-! Runs of calls. Every run returns a table of which lookups can be stated, or
it ends where a table exceeds its allocation. No key is lost as long as each
pair that is placed meets room in the first 256 rounds of its probe. -/
namespace HashBench.Emilib2O

open Search OpenAddressing

variable {K V : Type} {bp : Blueprint K V} {memory : Nat → K × V} {t u : Table K V} {key : K}

section Create

theorem createTable_returns (bp : Blueprint K V) (memory : Nat → K × V) :
    ReturnsTo (fun fuel => (Shim.createTable bp memory fuel).run)
      (.ok (newTable memory simdBytes)) := by
  have hDouble : ReturnsTo (fun fuel => doubleBuckets 4 fuel simdBytes) simdBytes :=
    ReturnsTo.of_succ (ReturnsTo.pure _)
  unfold Shim.createTable hashMap rehash
  refine (lift_returns hDouble).andThen ?_
  exact ReturnsTo.pure _

end Create

section Insert

/-- A key is stored in a bucket that its probe reads. -/
theorem HoldsKey.near (hKept : Kept bp t) {p : Nat} (hp : p < t.numBuckets)
    (h : HoldsKey bp t p key) : Near (KeyWithin bp t key) (slots t) (keyOffset bp t key) p := by
  obtain ⟨e, hLive, hEq⟩ := h
  have hNear : Near (KeyWithin bp t e.1) (slots t) (keyOffset bp t e.1) p :=
    hKept.tracked p hp e hLive
  rwa [keyOffset, KeyWithin, mainBucket_congr hEq] at hNear

/-- A key has a bucket exactly if its class is stored. -/
theorem exists_holdsKey_iff : (∃ b < t.numBuckets, HoldsKey bp t b key) ↔
    bp.cls key ∈ (contents (slots t) t.numBuckets).map fun e => bp.cls e.1 := by
  rw [Multiset.mem_map]
  constructor
  · rintro ⟨b, hb, e, hLive, hEq⟩
    exact ⟨e, mem_contents.mpr ⟨b, hb, hLive⟩, bp.cls_eq_iff.mpr hEq⟩
  · rintro ⟨e, he, hEq⟩
    obtain ⟨b, hb, hLive⟩ := mem_contents.mp he
    exact ⟨b, hb, e, hLive, bp.cls_eq_iff.mp hEq⟩

/-- The value is stored at the bucket of the key, where a new pair is constructed. -/
def assigned (bp : Blueprint K V) (key : K) (found : Nat × Bool × Table K V) : Table K V :=
  let t := if found.2.1 = true then found.2.2.construct found.1 (key, bp.valueType) else found.2.2
  { t with pairs := Function.update t.pairs found.1 ((t.pairs found.1).1, bp.valueType) }

theorem insert_eq (bp : Blueprint K V) (memory : Nat → K × V) (fuel : Nat) (t : Table K V)
    (key : K) : Shim.insert bp memory fuel t key =
      reserve bp memory fuel t t.numFilled >>= fun u =>
        lift (allocate bp fuel u key) >>= fun found => pure (assigned bp key found) := by
  simp only [Shim.insert, index, findOrAllocate, bind_assoc, pure_bind]
  rfl

/-- Storing the value of a bucket that has it changes nothing. -/
theorem store_value {b : Nat} (h : (t.pairs b).2 = bp.valueType) :
    { t with pairs := Function.update t.pairs b ((t.pairs b).1, bp.valueType) } = t := by
  rw [← h, Prod.mk.eta, Function.update_eq_self]

/-- In a table with room an insertion finds the bucket of the key, and nothing
changes, or it places the key where no near bucket has it. -/
theorem insert_reserved (h : WellFormed bp u) (hRoom : 8 * u.numFilled < 7 * u.numBuckets)
    (hReserve : ReturnsTo (fun fuel => (reserve bp memory fuel t t.numFilled).run) (.ok u))
    (key : K) :
    (ReturnsTo (fun fuel => (Shim.insert bp memory fuel t key).run) (.ok u) ∧
        ∃ b < u.numBuckets, HoldsKey bp u b key) ∨
      ∃ b d, ReturnsTo (fun fuel => (Shim.insert bp memory fuel t key).run)
          (.ok (placed bp u (key, bp.valueType) b d)) ∧ Chosen bp u key b d ∧
        ∀ p, Near (KeyWithin bp u key) (slots u) (keyOffset bp u key) p → ¬ HoldsKey bp u p key := by
  simp only [insert_eq]
  rcases allocate_returns h hRoom key with ⟨b, hRun, hb, hHolds⟩ | ⟨b, d, hRun, hChosen, hAbsent⟩
  · have hAssigned : assigned bp key (b, false, u) = u := by
      obtain ⟨e, hLive, _⟩ := hHolds
      refine store_value (t := u) ?_
      rw [(slots_eq_live_iff.mp hLive).2]
      exact h.values e (mem_contents.mpr ⟨b, hb, hLive⟩)
    refine Or.inl ⟨hReserve.andThen ((lift_returns hRun).andThen ?_), b, hb, hHolds⟩
    simp only [hAssigned]
    exact ReturnsTo.pure _
  · have hAssigned : assigned bp key (b, true, (recorded bp u key d).setStates b (keyH2 bp key)) =
        placed bp u (key, bp.valueType) b d := by
      refine store_value (t := placed bp u (key, bp.valueType) b d) ?_
      rw [placed_eq]
      simp only [Function.update_self]
    refine Or.inr ⟨b, d, hReserve.andThen ((lift_returns hRun).andThen ?_), hChosen, hAbsent⟩
    simp only [hAssigned]
    exact ReturnsTo.pure _

/-- What an insertion into these pairs places, in a rehash or for the key, meets
room in the first 256 rounds of its probe, and no table exceeds its allocation. -/
structure Fits (bp : Blueprint K V) (memory : Nat → K × V) (t : Table K V) (key : K) : Prop where
  few : t.numFilled < 7 * 2 ^ 27
  growth : GrowthFits bp memory t
  new : (∀ b < t.numBuckets, ¬ HoldsKey bp t b key) → ∀ u,
    ReturnsTo (fun fuel => (reserve bp memory fuel t t.numFilled).run) (.ok u) → Reaches bp u key

/-- A table without a lost pair, of which these are the keys. -/
structure Ready (bp : Blueprint K V) (t : Table K V) (present : K → Bool) : Prop where
  wellFormed : WellFormed bp t
  kept : Kept bp t
  holds : bp.Holds ((contents (slots t) t.numBuckets).map fun e => bp.cls e.1) present

/-- Every insertion ends. -/
theorem insert_returns (h : WellFormed bp t) (memory : Nat → K × V) (key : K) :
    (∃ t', ReturnsTo (fun fuel => (Shim.insert bp memory fuel t key).run) (.ok t') ∧
        WellFormed bp t') ∨
      ReturnsTo (fun fuel => (Shim.insert bp memory fuel t key).run) (.error .heapOverflow) := by
  rcases reserve_returns h memory with ⟨u, hReserve, _, hReserved⟩ | ⟨hReserve, _⟩
  · have hu := hReserved.wellFormed
    rcases insert_reserved hu hReserved.room hReserve key with ⟨hRun, _⟩ | ⟨b, d, hRun, hChosen, _⟩
    · exact Or.inl ⟨u, hRun, hu⟩
    · exact Or.inl ⟨_, hRun, hu.placed hReserved.room hChosen rfl⟩
  · simp only [insert_eq]
    exact Or.inr (hReserve.raise _)

/-- An insertion that fits stores the key once, and loses none. -/
theorem Ready.insert {present : K → Bool} (h : Ready bp t present)
    (hFits : Fits bp memory t key) :
    ∃ t', ReturnsTo (fun fuel => (Shim.insert bp memory fuel t key).run) (.ok t') ∧
      Ready bp t' (bp.apply present (.insert key)) := by
  rcases reserve_returns h.wellFormed memory with ⟨u, hReserve, _, hReserved⟩ | ⟨_, hMany⟩
  · have hu := hReserved.wellFormed
    have hKept := hReserved.kept h.kept hFits.growth
    have hHolds := h.holds
    rw [← hReserved.same] at hHolds
    rcases insert_reserved hu hReserved.room hReserve key with
      ⟨hRun, hStored⟩ | ⟨b, d, hRun, hChosen, hAbsent⟩
    · exact ⟨u, hRun, hu, hKept, hHolds.insert_old (exists_holdsKey_iff.mp hStored)⟩
    · have hNew : bp.cls key ∉ (contents (slots u) u.numBuckets).map fun e => bp.cls e.1 := by
        rw [← exists_holdsKey_iff]
        rintro ⟨p, hp, hStored⟩
        exact hAbsent p (hStored.near hKept hp) hStored
      have hReach : Reaches bp u key := by
        refine hFits.new (fun p hp hStored => hNew ?_) u hReserve
        rw [hReserved.same]
        exact exists_holdsKey_iff.mp ⟨p, hp, hStored⟩
      refine ⟨_, hRun, hu.placed hReserved.room hChosen rfl,
        hKept.placed hChosen ((hChosen.lt_iff hu).mpr hReach) hNew, ?_⟩
      rw [contents_placed _ _ _ hChosen.1.within.2 hChosen.1.free, Multiset.map_cons]
      exact hHolds.insert_new key
  · exact absurd hFits.few (Nat.not_lt.mpr hMany)

/-- An insertion that does not fit loses a pair. -/
theorem Ready.insert_lost {present : K → Bool} (h : Ready bp t present)
    (hNot : ¬ Fits bp memory t key) :
    ReturnsTo (fun fuel => (Shim.insert bp memory fuel t key).run) (.error .heapOverflow) ∨
      ∃ t', ReturnsTo (fun fuel => (Shim.insert bp memory fuel t key).run) (.ok t') ∧
        WellFormed bp t' ∧ Lost bp t' := by
  rcases reserve_returns h.wellFormed memory with ⟨u, hReserve, hFew, hReserved⟩ | ⟨hReserve, _⟩
  · refine Or.inr ?_
    have hu := hReserved.wellFormed
    rcases insert_reserved hu hReserved.room hReserve key with
      ⟨hRun, hStored⟩ | ⟨b, d, hRun, hChosen, _⟩
    · refine ⟨u, hRun, hu, hReserved.lost fun hGrowth => hNot ⟨hFew, hGrowth, fun hAbsent _ _ => ?_⟩⟩
      rw [exists_holdsKey_iff, hReserved.same, ← exists_holdsKey_iff] at hStored
      obtain ⟨p, hp, hStored⟩ := hStored
      exact absurd hStored (hAbsent p hp)
    · refine ⟨_, hRun, hu.placed hReserved.room hChosen rfl, ?_⟩
      by_cases hGrowth : GrowthFits bp memory t
      · refine lost_placed hChosen fun hReach => hNot ⟨hFew, hGrowth, fun _ u' hReserve' => ?_⟩
        rwa [← Except.ok.inj (hReserve.unique hReserve')]
      · exact (hReserved.lost hGrowth).placed hChosen.1.free
  · simp only [insert_eq]
    exact Or.inl (hReserve.raise _)

end Insert

section Erase

/-- Every erasure ends. It takes out one pair of the key, or no near bucket has
the key. -/
theorem erase_returns (h : WellFormed bp t) (key : K) :
    (∃ b < t.numBuckets, HoldsKey bp t b key ∧
        ReturnsTo (fun fuel => (Shim.erase bp fuel t key).run) (.ok (eraseAt t b))) ∨
      (ReturnsTo (fun fuel => (Shim.erase bp fuel t key).run) (.ok t) ∧
        ∀ p, Near (KeyWithin bp t key) (slots t) (keyOffset bp t key) p →
          ¬ HoldsKey bp t p key) := by
  obtain ⟨found, hFind, ⟨round, _, hWithin, hHolds⟩ | ⟨rfl, hAbsent⟩⟩ := find_returns h key
  · refine Or.inl ⟨found, hWithin.2, hHolds, ?_⟩
    have hRun := lift_returns (ε := Fault) (hFind.map fun b => if b = t.numBuckets then t else eraseAt t b)
    rwa [if_neg hWithin.2.ne] at hRun
  · refine Or.inr ⟨?_, hAbsent⟩
    have hRun := lift_returns (ε := Fault) (hFind.map fun b => if b = t.numBuckets then t else eraseAt t b)
    rwa [if_pos rfl] at hRun

/-- An erasure takes the key out, and loses no other. -/
theorem Ready.erase {present : K → Bool} (h : Ready bp t present) (key : K) :
    ∃ t', ReturnsTo (fun fuel => (Shim.erase bp fuel t key).run) (.ok t') ∧
      Ready bp t' (bp.apply present (.erase key)) := by
  rcases erase_returns h.wellFormed key with ⟨b, hb, ⟨e, hLive, hEq⟩, hRun⟩ | ⟨hRun, hAbsent⟩
  · have hHolds := h.holds
    have hNodup := h.kept.nodup
    rw [← contents_eraseAt h.wellFormed hb hLive, Multiset.map_cons, bp.cls_eq_iff.mpr hEq]
      at hHolds hNodup
    exact ⟨_, hRun, h.wellFormed.eraseAt hb hLive, h.kept.eraseAt h.wellFormed hb hLive,
      hHolds.erase_stored hNodup⟩
  · refine ⟨t, hRun, h.wellFormed, h.kept, h.holds.erase_absent ?_⟩
    rw [← exists_holdsKey_iff]
    rintro ⟨p, hp, hStored⟩
    exact hAbsent p (hStored.near h.kept hp) hStored

end Erase

section Run

/-- A table before any call. -/
theorem ready_newTable (bp : Blueprint K V) (memory : Nat → K × V) :
    Ready bp (newTable memory simdBytes) fun _ => false := by
  refine ⟨newTable_wellFormed bp memory ⟨0, Nat.zero_le _, rfl⟩, newTable_kept bp memory _, ?_⟩
  rw [contents_newTable]
  exact Blueprint.Holds.empty

theorem run_nil (bp : Blueprint K V) (memory : Nat → K × V) :
    ReturnsTo (fun fuel => (Shim.run bp memory fuel []).run) (.ok (newTable memory simdBytes)) :=
  (createTable_returns bp memory).andThen (ReturnsTo.pure _)

theorem run_concat (bp : Blueprint K V) (memory : Nat → K × V) (fuel : Nat) (ops : List (Op K))
    (op : Op K) : Shim.run bp memory fuel (ops ++ [op]) =
      Shim.run bp memory fuel ops >>= fun t => Shim.call bp memory fuel t op := by
  simp [Shim.run, List.foldlM_append]

/-- Every run ends, in a well-formed table or where a table exceeds its allocation. -/
theorem run_returns (bp : Blueprint K V) (memory : Nat → K × V) (ops : List (Op K)) :
    (∃ t, ReturnsTo (fun fuel => (Shim.run bp memory fuel ops).run) (.ok t) ∧ WellFormed bp t) ∨
      ReturnsTo (fun fuel => (Shim.run bp memory fuel ops).run) (.error .heapOverflow) := by
  induction ops using List.reverseRecOn with
  | nil => exact Or.inl ⟨_, run_nil bp memory, (ready_newTable bp memory).wellFormed⟩
  | append_singleton ops op ih =>
      simp only [run_concat]
      rcases ih with ⟨t, hRun, hWell⟩ | hRun
      · cases op with
        | insert key =>
            rcases insert_returns hWell memory key with ⟨t', hCall, hWell'⟩ | hCall
            · exact Or.inl ⟨t', hRun.andThen hCall, hWell'⟩
            · exact Or.inr (hRun.andThen hCall)
        | erase key =>
            rcases erase_returns hWell key with
              ⟨b, hb, ⟨e, hLive, _⟩, hCall⟩ | ⟨hCall, _⟩
            · exact Or.inl ⟨_, hRun.andThen hCall, hWell.eraseAt hb hLive⟩
            · exact Or.inl ⟨t, hRun.andThen hCall, hWell⟩
      · exact Or.inr (hRun.raise _)

/-- The table of a run is well formed. -/
theorem WellFormed.of_run {ops : List (Op K)}
    (hRun : ReturnsTo (fun fuel => (Shim.run bp memory fuel ops).run) (.ok t)) :
    WellFormed bp t := by
  rcases run_returns bp memory ops with ⟨t', hRun', hWell⟩ | hRun'
  · rwa [Except.ok.inj (hRun.unique hRun')]
  · cases hRun.unique hRun'

/-- Every insertion of a run fits the table that it is made in. -/
def RunFits (bp : Blueprint K V) (memory : Nat → K × V) (ops : List (Op K)) : Prop :=
  ∀ before key after, ops = before ++ .insert key :: after → ∀ t,
    ReturnsTo (fun fuel => (Shim.run bp memory fuel before).run) (.ok t) → Fits bp memory t key

theorem RunFits.nil : RunFits bp memory [] := fun _ _ _ hSplit =>
  absurd hSplit.symm (by simp)

theorem RunFits.concat {ops : List (Op K)} {op : Op K} (h : RunFits bp memory ops)
    (hLast : ∀ key, op = .insert key → ∀ t,
      ReturnsTo (fun fuel => (Shim.run bp memory fuel ops).run) (.ok t) → Fits bp memory t key) :
    RunFits bp memory (ops ++ [op]) := by
  intro before key after hSplit
  rcases List.eq_nil_or_concat after with rfl | ⟨after, last, rfl⟩
  · obtain ⟨rfl, hOp⟩ := List.append_inj' hSplit rfl
    exact hLast key (List.head_eq_of_cons_eq hOp)
  · rw [List.concat_eq_append, ← List.cons_append, ← List.append_assoc] at hSplit
    exact h before key after (List.append_inj' hSplit rfl).1

theorem RunFits.left {before after : List (Op K)} (h : RunFits bp memory (before ++ after)) :
    RunFits bp memory before := by
  rintro first key rest rfl
  exact h first key (rest ++ after) (by rw [List.append_assoc, List.cons_append])

/-- A run whose insertions fit reaches a table with the keys of its calls. -/
theorem RunFits.ready {ops : List (Op K)} (h : RunFits bp memory ops) :
    ∃ t, ReturnsTo (fun fuel => (Shim.run bp memory fuel ops).run) (.ok t) ∧
      Ready bp t (bp.present ops) := by
  induction ops using List.reverseRecOn with
  | nil => exact ⟨_, run_nil bp memory, ready_newTable bp memory⟩
  | append_singleton ops op ih =>
      obtain ⟨t, hRun, hReady⟩ := ih h.left
      simp only [run_concat, Blueprint.present_concat]
      cases op with
      | insert key =>
          obtain ⟨t', hCall, hReady'⟩ := hReady.insert (h ops key [] rfl t hRun)
          exact ⟨t', hRun.andThen hCall, hReady'⟩
      | erase key =>
          obtain ⟨t', hCall, hReady'⟩ := hReady.erase key
          exact ⟨t', hRun.andThen hCall, hReady'⟩

end Run

end HashBench.Emilib2O
