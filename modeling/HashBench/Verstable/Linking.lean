import HashBench.Verstable.Chain

/-! The steps that change chains: a bucket begins a chain, joins one, leaves one,
and moves to another bucket of its chain. -/
namespace HashBench.Verstable

open Search Chains

variable {K V : Type} {bp : Blueprint K V} {table : Table K V} {key : K} {val : V}
  {occupied : Set Nat} {disp : Nat → Nat} {home : Nat}

section FirstEmpty

variable (table home)

private theorem findFirstEmptyFrom_spec {left displacement linearDisplacement : Nat}
    (hLeft : left + displacement = 2047) (hPos : 0 < left)
    (hLinear : linearDisplacement = vtQuadratic displacement) :
    (∃ d, displacement ≤ d ∧ d < 2047 ∧ table.metadata (table.bucketAt home d) = vtEmpty ∧
      findFirstEmptyFrom table home left displacement linearDisplacement =
        some (table.bucketAt home d, d)) ∨
    (∀ d, displacement ≤ d → d < 2047 → table.metadata (table.bucketAt home d) ≠ vtEmpty) ∧
      findFirstEmptyFrom table home left displacement linearDisplacement = none := by
  induction left generalizing displacement linearDisplacement with
  | zero => omega
  | succ left ih =>
      have hBucket : (home + linearDisplacement) &&& table.bucketsMask =
          table.bucketAt home displacement := by rw [hLinear]; rfl
      rw [findFirstEmptyFrom, hBucket, vtDisplacementMask_toNat]
      by_cases hEmpty : table.metadata (table.bucketAt home displacement) = vtEmpty
      · exact Or.inl ⟨displacement, le_rfl, by omega, hEmpty, if_pos hEmpty⟩
      · rw [if_neg hEmpty]
        split_ifs with hLimit
        · refine Or.inr ⟨fun d hLow hHigh => ?_, rfl⟩
          obtain rfl : d = displacement := by omega
          exact hEmpty
        · have hNext : linearDisplacement + (displacement + 1) = vtQuadratic (displacement + 1) := by
            rw [hLinear, vtQuadratic_eq, vtQuadratic_eq, Triangular.offset_succ]
          rcases ih (by omega) (by omega) hNext with ⟨d, hLow, hHigh, hFree, hFound⟩ | ⟨hFull, hNone⟩
          · exact Or.inl ⟨d, by omega, hHigh, hFree, hFound⟩
          · refine Or.inr ⟨fun d hLow hHigh => ?_, hNone⟩
            rcases Nat.lt_or_eq_of_le hLow with hLt | rfl
            · exact hFull d hLt hHigh
            · exact hEmpty

/-- The search for an empty bucket inspects all displacements below the limit. -/
theorem findFirstEmpty_cases :
    (∃ d, 0 < d ∧ d < 2047 ∧ table.metadata (table.bucketAt home d) = vtEmpty ∧
      findFirstEmpty table home = some (table.bucketAt home d, d)) ∨
    (∀ d, 0 < d → d < 2047 → table.metadata (table.bucketAt home d) ≠ vtEmpty) ∧
      findFirstEmpty table home = none :=
  findFirstEmptyFrom_spec table home (by decide) (by decide) (by decide)

end FirstEmpty

/-- The link of one bucket changes with its metadatum. -/
theorem link_update (table : Table K V) (p : Nat) (metadatum : Metadatum) :
    Table.link { table with metadata := Function.update table.metadata p metadatum } =
      Function.update table.link p (displacementOf metadatum) :=
  Function.comp_update displacementOf table.metadata p metadatum

/-- The home of the key in one bucket changes with its pair. -/
theorem homeAt_update (bp : Blueprint K V) (table : Table K V) (p : Nat) (pair : K × V) :
    Table.homeAt bp { table with buckets := Function.update table.buckets p pair } =
      Function.update (table.homeAt bp) p (table.homeBucket bp pair.1) :=
  Function.comp_update (fun pair : K × V => table.homeBucket bp pair.1) table.buckets p pair

section Reseat

variable {p : Nat} {pair : K × V} {metadatum : Metadatum}

/-- A pair with the same home takes the place of that of a bucket. -/
theorem homeAt_reseat (hHome : table.homeBucket bp pair.1 = table.homeAt bp p) :
    Table.homeAt bp { table with
      buckets := Function.update table.buckets p pair
      metadata := Function.update table.metadata p metadatum } = table.homeAt bp := by
  have hUpdate := homeAt_update bp table p pair
  rw [hHome, Function.update_eq_self] at hUpdate
  exact hUpdate

theorem link_reseat (hLink : displacementOf metadatum = table.link p) :
    Table.link { table with
      buckets := Function.update table.buckets p pair
      metadata := Function.update table.metadata p metadatum } = table.link := by
  have hUpdate := link_update table p metadatum
  rw [hLink, Function.update_eq_self] at hUpdate
  exact hUpdate

end Reseat

theorem inHome_eq (table : Table K V) (p : Nat) :
    table.inHome p = (table.metadata p &&& vtInHomeBucketMask != 0#16) := rfl

namespace Linked

/-- A pair whose home no other key has begins a chain there. -/
theorem beginChain (h : Linked bp table occupied disp) {pair : K × V}
    (hFree : table.homeBucket bp pair.1 ∉ occupied) :
    Linked bp (beginChain table (table.homeBucket bp pair.1) (vtHashfrag (hashFn bp pair.1)) pair)
      (Insert.insert (table.homeBucket bp pair.1) occupied)
      (Function.update disp (table.homeBucket bp pair.1) 0) := by
  obtain ⟨hLink, hFrag, hFlag⟩ := begun (vtHashfrag_and (hashFn bp pair.1))
  have hNe {p : Nat} (hp : p ∈ occupied) : p ≠ table.homeBucket bp pair.1 :=
    fun hEq => hFree (hEq ▸ hp)
  have hHome := homeAt_update bp table (table.homeBucket bp pair.1) pair
  refine ⟨h.mask, ?_, ?_, ?_⟩
  · have hHead := h.chained.head hFree (h.bucketAt_zero (table.homeBucket_le bp pair.1))
      (by decide)
    have hLinks := link_update table (table.homeBucket bp pair.1)
      (vtHashfrag (hashFn bp pair.1) ||| vtInHomeBucketMask ||| vtDisplacementMask)
    rw [hLink] at hLinks
    rw [← hHome, ← hLinks] at hHead
    exact hHead
  · rintro p (rfl | hp)
    · simpa [Verstable.beginChain] using hFrag
    · simpa [Verstable.beginChain, hNe hp] using h.frag p hp
  · intro p hp
    change ((Function.update table.metadata _ _ p &&& vtInHomeBucketMask != 0#16) : Bool) =
      decide (Table.homeAt bp { table with
        buckets := Function.update table.buckets (table.homeBucket bp pair.1) pair } p = p)
    rw [hHome]
    rcases hp with rfl | hp
    · rw [Function.update_self, Function.update_self, hFlag, decide_eq_true rfl]
      rfl
    · rw [Function.update_of_ne (hNe hp), Function.update_of_ne (hNe hp), ← inHome_eq,
        h.flag p hp]

/-- A pair joins the chain of its home at an unoccupied bucket. -/
theorem linkAfter (h : Linked bp table occupied disp) {pair : K × V} {prev d : Nat}
    (hPrev : prev ∈ occupied) (hHome : table.homeAt bp prev = table.homeBucket bp pair.1)
    (hFree : table.bucketAt (table.homeBucket bp pair.1) d ∉ occupied) (hAfter : disp prev < d)
    (hBefore : d < table.link prev) :
    Linked bp (linkAfter table prev (table.bucketAt (table.homeBucket bp pair.1) d) d
        (vtHashfrag (hashFn bp pair.1)) pair)
      (Insert.insert (table.bucketAt (table.homeBucket bp pair.1) d) occupied)
      (Function.update disp (table.bucketAt (table.homeBucket bp pair.1) d) d) := by
  have hSplice := h.chained.splice hPrev hFree (hHome ▸ rfl) hAfter hBefore
  have hLimit : d ≤ 2047 := (hBefore.trans_le (h.chained.link_le hPrev)).le
  rw [hHome] at hSplice
  have hHeaded := (h.chained.headed prev hPrev).1
  rw [hHome] at hHeaded
  generalize table.bucketAt (table.homeBucket bp pair.1) d = empty at *
  have hNe {p : Nat} (hp : p ∈ occupied) : p ≠ empty := fun hEq => hFree (hEq ▸ hp)
  obtain ⟨hLink, hFrag, hFlag⟩ :=
    joined (y := table.metadata prev) (vtHashfrag_and (hashFn bp pair.1))
  obtain ⟨hLink', hFrag', hFlag'⟩ := relinked (x := table.metadata prev) hLimit
  have hHomes := homeAt_update bp table empty pair
  -- The metadatum of `prev` is read before any of its bits change.
  have hMetadata : (Verstable.linkAfter table prev empty d (vtHashfrag (hashFn bp pair.1))
      pair).metadata = Function.update (Function.update table.metadata empty
        (vtHashfrag (hashFn bp pair.1) ||| table.metadata prev &&& vtDisplacementMask)) prev
        (table.metadata prev &&& ~~~vtDisplacementMask ||| BitVec.ofNat 16 d) := by
    rw [Verstable.linkAfter]
    dsimp only
    rw [Function.update_of_ne (hNe hPrev)]
  have hAt {p : Nat} (hp : p ∈ occupied) (hp' : p ≠ prev) :
      (Verstable.linkAfter table prev empty d (vtHashfrag (hashFn bp pair.1)) pair).metadata p =
        table.metadata p := by
    rw [hMetadata, Function.update_of_ne hp', Function.update_of_ne (hNe hp)]
  refine ⟨h.mask, ?_, ?_, ?_⟩
  · have hLinks : (Verstable.linkAfter table prev empty d (vtHashfrag (hashFn bp pair.1))
        pair).link = Function.update (Function.update table.link empty (table.link prev)) prev d := by
      change displacementOf ∘ (Verstable.linkAfter _ _ _ _ _ _).metadata = _
      rw [hMetadata, Function.comp_update, Function.comp_update, hLink, hLink']
      rfl
    rw [← hHomes, ← hLinks] at hSplice
    exact hSplice
  · rintro p (rfl | hp)
    · rw [hMetadata, Function.update_of_ne (hNe hPrev).symm, Function.update_self, hFrag]
      simp [Verstable.linkAfter]
    · have hPair : (Verstable.linkAfter table prev empty d (vtHashfrag (hashFn bp pair.1))
          pair).buckets p = table.buckets p := Function.update_of_ne (hNe hp) ..
      rw [hPair, ← h.frag p hp]
      by_cases hEq : p = prev
      · subst hEq
        rw [hMetadata, Function.update_self, hFrag']
      · rw [hAt hp hEq]
  · intro p hp
    change _ = decide (Table.homeAt bp { table with
      buckets := Function.update table.buckets empty pair } p = p)
    rw [hHomes, inHome_eq]
    rcases hp with rfl | hp
    · have hNot : table.homeBucket bp pair.1 ≠ p := hNe hHeaded
      rw [hMetadata, Function.update_of_ne (hNe hPrev).symm, Function.update_self, hFlag,
        Function.update_self, decide_eq_false hNot]
      rfl
    · rw [Function.update_of_ne (hNe hp), ← h.flag p hp]
      by_cases hEq : p = prev
      · subst hEq
        rw [hMetadata, Function.update_self, hFlag', inHome_eq]
      · rw [hAt hp hEq, inHome_eq]

/-- The metadatum of an unoccupied bucket says nothing. -/
theorem ignore (h : Linked bp table occupied disp) {p : Nat} (hp : p ∉ occupied)
    (metadatum : Metadatum) :
    Linked bp { table with metadata := Function.update table.metadata p metadatum } occupied
      disp := by
  have hNe {q : Nat} (hq : q ∈ occupied) : q ≠ p := fun hEq => hp (hEq ▸ hq)
  refine ⟨h.mask, ?_, fun q hq => ?_, fun q hq => ?_⟩
  · rw [link_update]
    exact h.chained.congr_link fun q hq => Function.update_of_ne (hNe hq) ..
  · refine Eq.trans ?_ (h.frag q hq)
    exact congrArg (· &&& vtHashFragMask) (Function.update_of_ne (hNe hq) ..)
  · refine Eq.trans ?_ (h.flag q hq)
    exact congrArg (fun m => m &&& vtInHomeBucketMask != 0#16) (Function.update_of_ne (hNe hq) ..)

/-- The pair of a bucket is exchanged for another one with the same home. -/
theorem reseat (h : Linked bp table occupied disp) {p : Nat} {pair : K × V} {metadatum : Metadatum}
    (hHome : table.homeBucket bp pair.1 = table.homeAt bp p)
    (hLink : displacementOf metadatum = table.link p)
    (hFrag : metadatum &&& vtHashFragMask = vtHashfrag (hashFn bp pair.1))
    (hFlag : metadatum &&& vtInHomeBucketMask = table.metadata p &&& vtInHomeBucketMask) :
    Linked bp { table with
      buckets := Function.update table.buckets p pair
      metadata := Function.update table.metadata p metadatum } occupied disp := by
  refine ⟨h.mask, ?_, fun q hq => ?_, fun q hq => ?_⟩
  · rw [homeAt_reseat hHome, link_reseat hLink]
    exact h.chained
  · by_cases hEq : q = p
    · subst hEq
      simpa using hFrag
    · simpa [hEq] using h.frag q hq
  · rw [homeAt_reseat hHome, ← h.flag q hq, inHome_eq, inHome_eq]
    by_cases hEq : q = p
    · subst hEq
      simp [hFlag]
    · simp [hEq]

/-- The bucket after `prev` leaves its chain. -/
theorem unlink (h : Linked bp table occupied disp) {prev p : Nat} {metadatum : Metadatum}
    (hPrev : prev ∈ occupied) (hp : p ∈ occupied) (hHome : table.homeAt bp p = table.homeAt bp prev)
    (hDisp : table.link prev = disp p) (hLink : displacementOf metadatum = table.link p)
    (hFrag : metadatum &&& vtHashFragMask = table.metadata prev &&& vtHashFragMask)
    (hFlag : metadatum &&& vtInHomeBucketMask = table.metadata prev &&& vtInHomeBucketMask) :
    Linked bp { table with metadata := Function.update table.metadata prev metadatum }
      (occupied \ {p}) disp := by
  refine ⟨h.mask, ?_, fun q hq => ?_, fun q hq => ?_⟩
  · rw [link_update, hLink]
    exact h.chained.unlink hPrev hp hHome hDisp
  · refine Eq.trans ?_ (h.frag q hq.1)
    by_cases hEq : q = prev
    · subst hEq
      simp [hFrag]
    · simp [hEq]
  · refine Eq.trans ?_ (h.flag q hq.1)
    rw [inHome_eq, inHome_eq]
    by_cases hEq : q = prev
    · subst hEq
      simp [hFlag]
    · simp [hEq]

/-- The search for the bucket before one that is not its home returns it. -/
theorem findPrevious_returns (h : Linked bp table occupied disp) {p : Nat} (hp : p ∈ occupied)
    (hNe : table.homeAt bp p ≠ p) :
    ∃ prev ∈ occupied, ReturnsTo (fun fuel => findPrevious fuel table (table.homeAt bp p) p) prev ∧
      table.homeAt bp prev = table.homeAt bp p ∧ table.link prev = disp p := by
  obtain ⟨count, hSearch, hMem, hHome, hLink⟩ := h.chained.search_previous hp hNe
  exact ⟨_, hMem, hSearch.map _, hHome, hLink⟩

/-- The search for the place of an unoccupied bucket in a chain returns it. -/
theorem findInsertLocation_returns (h : Linked bp table occupied disp)
    (hHead : home ∈ occupied) (hHome : table.homeAt bp home = home) {d : Nat} (hPos : 0 < d)
    (hLimit : d < 2047) (hFree : table.bucketAt home d ∉ occupied) :
    ∃ prev ∈ occupied, ReturnsTo (fun fuel => findInsertLocationInChain fuel table home d) prev ∧
      table.homeAt bp prev = home ∧ disp prev < d ∧ d < table.link prev := by
  have hZero := (h.chained.home_eq_iff hHead).mp hHome
  obtain ⟨count, hSearch, hMem, hChain, hAfter, hBefore⟩ :=
    h.chained.search_place hHead hHome (hZero ▸ hPos) hLimit hFree
  exact ⟨_, hMem, hSearch.map _, hChain, hAfter, hBefore⟩

end Linked

end HashBench.Verstable
