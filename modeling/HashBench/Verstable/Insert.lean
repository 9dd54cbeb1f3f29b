import HashBench.Verstable.Linking
import HashBench.Library.OpenAddressing
import HashBench.Pairs

/-! One attempt to insert a pair. It adds the pair, or it leaves the pairs of the
table in place: then the table is full, or the displacement limit was met. -/
namespace HashBench.Verstable

open Search Chains OpenAddressing

variable {K V : Type} {bp : Blueprint K V} {table : Table K V} {key : K} {val : V}
  {stored : Multiset (K × V)}

/-- What each bucket holds. -/
def slots (table : Table K V) (p : Nat) : Slot (K × V) :=
  if table.metadata p = vtEmpty then .empty else .live (table.buckets p)

theorem slots_eq_empty_iff {p : Nat} : slots table p = .empty ↔ table.metadata p = vtEmpty := by
  unfold slots
  split_ifs with h <;> simp [h]

theorem slots_of_ne {p : Nat} (h : table.metadata p ≠ vtEmpty) :
    slots table p = .live (table.buckets p) := if_neg h

theorem slots_eq_live {p : Nat} {pair : K × V} (h : slots table p = .live pair) :
    table.metadata p ≠ vtEmpty ∧ table.buckets p = pair := by
  have hNe : table.metadata p ≠ vtEmpty := fun hEmpty => by
    rw [slots_eq_empty_iff.mpr hEmpty] at h
    cases h
  rw [slots_of_ne hNe, Slot.live.injEq] at h
  exact ⟨hNe, h⟩

theorem slots_write (table : Table K V) (p : Nat) (pair : K × V) {metadatum : Metadatum}
    (h : metadatum ≠ vtEmpty) :
    slots { table with
      buckets := Function.update table.buckets p pair
      metadata := Function.update table.metadata p metadatum } =
      Function.update (slots table) p (.live pair) := by
  funext q
  by_cases hEq : q = p
  · subst hEq
    simp [slots, h]
  · simp [slots, hEq]

theorem slots_relink (table : Table K V) {p : Nat} {metadatum : Metadatum}
    (h : metadatum ≠ vtEmpty) (hp : table.metadata p ≠ vtEmpty) :
    slots { table with metadata := Function.update table.metadata p metadatum } = slots table := by
  funext q
  by_cases hEq : q = p
  · subst hEq
    simp [slots, h, hp]
  · simp [slots, hEq]

theorem slots_clear (table : Table K V) (p : Nat) :
    slots { table with metadata := Function.update table.metadata p vtEmpty } =
      Function.update (slots table) p .empty := by
  funext q
  by_cases hEq : q = p
  · subst hEq
    simp [slots]
  · simp [slots, hEq]

theorem slots_linkAfter {prev empty d : Nat} {hashfrag : Metadatum} {pair : K × V}
    (hd : d ≤ 2047) (hPos : 0 < d) (hFrag : hashfrag &&& vtHashFragMask = hashfrag)
    (hNe : prev ≠ empty) (hPrev : 0 < table.link prev) :
    slots (linkAfter table prev empty d hashfrag pair) =
      Function.update (slots table) empty (.live pair) := by
  have hJoined : hashfrag ||| table.metadata prev &&& vtDisplacementMask ≠ vtEmpty := by
    refine ne_empty_of_displacement ?_
    rw [(joined hFrag).1]
    exact hPrev
  rw [← slots_write table empty pair hJoined]
  refine slots_relink { table with
    buckets := Function.update table.buckets empty pair
    metadata := Function.update table.metadata empty _ } (ne_empty_of_displacement ?_) ?_
  · rw [(relinked hd).1]
    exact hPos
  · exact (Function.update_of_ne hNe ..).trans_ne (ne_empty_of_displacement hPrev)

/-- The buckets that hold a pair. -/
def Table.occupied (table : Table K V) : Set Nat :=
  {p | p ≤ table.bucketsMask ∧ table.metadata p ≠ vtEmpty}

/-- The table holds these pairs, whether or not they are linked into chains. -/
structure Kept (bp : Blueprint K V) (table : Table K V) (stored : Multiset (K × V)) : Prop where
  mask : ∃ k, table.bucketsMask + 1 = 2 ^ k
  contents_eq : contents (slots table) (table.bucketsMask + 1) = stored
  keyCount_eq : table.keyCount = stored.card
  nodup : (bp.keyClasses stored).Nodup
  vacant : table.bucketsMask = 0 → table.metadata 0 = vtEmpty
  stopper : table.bucketsMask ≠ 0 → table.metadata (table.bucketsMask + 1) ≠ vtEmpty

/-- The pairs of the table are linked into chains. -/
structure Sound (bp : Blueprint K V) (table : Table K V) (stored : Multiset (K × V)) : Prop extends
    Kept bp table stored where
  linked : ∃ disp, Linked bp table table.occupied disp

/-- An iterator to the pair in bucket `p`. -/
structure PointsAt (bp : Blueprint K V) (table : Table K V) (itr : Itr) (p : Nat) : Prop where
  data : itr.data = p
  metadatum : itr.metadatum = p
  metadataEnd : itr.metadataEnd = table.bucketsMask + 1
  occupied : p ∈ table.occupied
  home : ∀ home, itr.homeBucket = some home → home = table.homeAt bp p

theorem PointsAt.not_end {itr : Itr} {p : Nat} (h : PointsAt bp table itr p) : isEnd itr = false := by
  rw [isEnd, h.metadatum, h.metadataEnd]
  exact beq_false_of_ne (Nat.ne_of_lt (Nat.lt_succ_of_le h.occupied.1))

/-- No bucket within the displacement limit of an occupied one is empty. -/
def Crowded (table : Table K V) : Prop :=
  ∃ home ∈ table.occupied, ∀ d, 0 < d → d < 2047 →
    table.metadata (table.bucketAt home d) ≠ vtEmpty

/-- The pair was added, for which there was room. -/
structure Added (maxLoad : ℚ) (bp : Blueprint K V) (table : Table K V) (stored : Multiset (K × V))
    (key : K) (val : V) (table' : Table K V) (itr : Itr) : Prop where
  sound : Sound bp table' ((key, val) ::ₘ stored)
  room : ¬ table.Overloaded maxLoad
  mask : table'.bucketsMask = table.bucketsMask
  pointsAt : ∃ p, PointsAt bp table' itr p ∧ table'.buckets p = (key, val)

/-- The pair was not added, and no other pair was lost. -/
structure Refused (maxLoad : ℚ) (bp : Blueprint K V) (table : Table K V)
    (stored : Multiset (K × V)) (table' : Table K V) (itr : Itr) : Prop where
  kept : Kept bp table' stored
  mask : table'.bucketsMask = table.bucketsMask
  isEnd : isEnd itr = true
  cause : table.Overloaded maxLoad ∨ Crowded table

/-- A stored pair has a matching key, and is exchanged if that was asked for. -/
structure Met (bp : Blueprint K V) (table : Table K V) (stored : Multiset (K × V)) (key : K)
    (val : V) (replace : Bool) (table' : Table K V) (itr : Itr) : Prop where
  sound : ∃ pair rest, stored = pair ::ₘ rest ∧ bp.cmprKeys pair.1 key = true ∧
    Sound bp table' ((if replace then (key, val) else pair) ::ₘ rest)
  mask : table'.bucketsMask = table.bucketsMask
  pointsAt : ∃ p, PointsAt bp table' itr p ∧ bp.cmprKeys (table'.buckets p).1 key = true

theorem Table.bucketCount_eq (h : table.bucketsMask ≠ 0) :
    table.bucketCount = table.bucketsMask + 1 := by
  rw [Table.bucketCount, if_pos h]

theorem Kept.lt_succ (_ : Kept bp table stored) {p : Nat} (hp : p ∈ table.occupied) :
    p < table.bucketsMask + 1 := Nat.lt_succ_of_le hp.1

theorem Kept.mem_stored (h : Kept bp table stored) {pair : K × V} :
    pair ∈ stored ↔ ∃ p ∈ table.occupied, table.buckets p = pair := by
  rw [← h.contents_eq, mem_contents]
  constructor
  · rintro ⟨p, hp, hLive⟩
    obtain ⟨hNe, hPair⟩ := slots_eq_live hLive
    exact ⟨p, ⟨Nat.le_of_lt_succ hp, hNe⟩, hPair⟩
  · rintro ⟨p, hp, rfl⟩
    exact ⟨p, h.lt_succ hp, slots_of_ne hp.2⟩

/-- Only a table with buckets is not overloaded. -/
theorem mask_ne_zero {maxLoad : ℚ} (h : ¬ table.Overloaded maxLoad) : table.bucketsMask ≠ 0 := by
  intro hZero
  refine h ?_
  rw [Table.Overloaded, Table.bucketCount, hZero]
  simp only [ne_eq, not_true_eq_false, if_false, Nat.add_zero, Nat.cast_zero, zero_mul]
  exact_mod_cast Nat.succ_pos table.keyCount

namespace Linked

variable {occupied : Set Nat} {disp : Nat → Nat} {p : Nat}

/-- The chains do not depend on the number of the keys. -/
theorem setCount (h : Linked bp table occupied disp) (count : Nat) :
    Linked bp { table with keyCount := count } occupied disp :=
  ⟨h.mask, h.chained, h.frag, h.flag⟩

/-- The key of a bucket that is not its home leaves its chain. -/
theorem disconnect_returns (h : Linked bp table occupied disp) (hp : p ∈ occupied)
    (hNe : table.homeAt bp p ≠ p) :
    ∃ table', ReturnsTo (fun fuel => disconnect fuel table (table.homeAt bp p) p) table' ∧
      Linked bp table' (occupied \ {p}) disp ∧ slots table' = slots table ∧
      table'.buckets = table.buckets ∧ table'.bucketsMask = table.bucketsMask ∧
      table'.keyCount = table.keyCount ∧ table'.metadata p = table.metadata p := by
  obtain ⟨prev, hPrev, hFound, hHome, hLink⟩ := h.findPrevious_returns hp hNe
  obtain ⟨hLinked, hFrag, hFlag⟩ := relinked_and (x := table.metadata prev) (y := table.metadata p)
  have hOther : p ≠ prev := by
    rintro rfl
    exact Nat.ne_of_gt (h.chained.ahead p hp) hLink
  refine ⟨_, hFound.bind (ReturnsTo.pure _), h.unlink hPrev hp hHome.symm hLink hLinked hFrag hFlag, ?_, rfl, rfl, rfl,
    Function.update_of_ne hOther ..⟩
  refine slots_relink table (ne_empty_of_displacement ?_) (h.ne_empty hPrev)
  rw [hLinked]
  exact h.link_pos hp

/-- A pair outside of the chains joins that of its home, if there is an empty
bucket within the limit. -/
theorem reconnect_returns (h : Linked bp table occupied disp) {bucket home : Nat}
    (hHome : home = table.homeAt bp bucket) (hHead : home ∈ occupied)
    (hFirst : table.homeAt bp home = home)
    (hFrag : table.metadata bucket &&& vtHashFragMask =
      vtHashfrag (hashFn bp (table.buckets bucket).1)) :
    (∃ d disp' table', ReturnsTo (fun fuel => reconnect fuel table home bucket) (true, table') ∧
      table.metadata (table.bucketAt home d) = vtEmpty ∧
      Linked bp table' (Insert.insert (table.bucketAt home d) occupied) disp' ∧
      slots table' =
        Function.update (slots table) (table.bucketAt home d) (.live (table.buckets bucket)) ∧
      table'.bucketsMask = table.bucketsMask ∧ table'.keyCount = table.keyCount) ∨
    ReturnsTo (fun fuel => reconnect fuel table home bucket) (false, table) ∧
      ∀ d, 0 < d → d < 2047 → table.metadata (table.bucketAt home d) ≠ vtEmpty := by
  unfold reconnect
  rcases findFirstEmpty_cases table home with ⟨d, hPos, hLimit, hFree, hFound⟩ | ⟨hFull, hNone⟩
  · have hNot : table.bucketAt home d ∉ occupied := fun hMem => h.ne_empty hMem hFree
    obtain ⟨prev, hPrev, hPlace, hPrevHome, hAfter, hBefore⟩ :=
      h.findInsertLocation_returns hHead hFirst hPos hLimit hNot
    have hNe : prev ≠ table.bucketAt home d := fun hEq => hNot (hEq ▸ hPrev)
    subst hHome
    have hLinked := h.linkAfter hPrev hPrevHome hNot hAfter hBefore
    simp only [hFound]
    rw [hFrag]
    exact Or.inl ⟨d, _, _, hPlace.bind (ReturnsTo.pure _), hFree, hLinked,
      slots_linkAfter hLimit.le hPos (vtHashfrag_and _) hNe (h.link_pos hPrev), rfl, rfl⟩
  · simp only [hNone]
    exact Or.inr ⟨ReturnsTo.pure _, hFull⟩

end Linked

theorem slots_congr {table' : Table K V} (h : slots table' = slots table) (p : Nat) :
    table'.metadata p = vtEmpty ↔ table.metadata p = vtEmpty := by
  rw [← slots_eq_empty_iff, ← slots_eq_empty_iff, h]

/-- A home bucket that holds a key of another chain is vacated, or its key could
not be moved. -/
theorem evict_returns {disp : Nat → Nat} {p : Nat} (h : Linked bp table table.occupied disp)
    (hp : p ∈ table.occupied) (hNe : table.homeAt bp p ≠ p) :
    ∃ vacated table', ReturnsTo (fun fuel => evict bp fuel table p) (vacated, table') ∧
      table'.bucketsMask = table.bucketsMask ∧ table'.keyCount = table.keyCount ∧
      ((vacated = true ∧ ∃ empty disp', empty ∉ table.occupied ∧ empty ≤ table.bucketsMask ∧
          Linked bp table' (Insert.insert empty (table.occupied \ {p})) disp' ∧
          slots table' = Function.update (slots table) empty (slots table p)) ∨
        vacated = false ∧ slots table' = slots table ∧ Crowded table) := by
  obtain ⟨table₁, hDisconnect, h₁, hSlots, hBuckets, hMask, hCount, hSame⟩ :=
    h.disconnect_returns hp hNe
  obtain ⟨hHead, hHome, _⟩ := h.chained.headed p hp
  have hHomes (q : Nat) : table₁.homeAt bp q = table.homeAt bp q := by
    rw [Table.homeAt, Table.homeAt, Table.homeBucket, Table.homeBucket, hBuckets, hMask]
  have hAt (d : Nat) :
      table₁.bucketAt (table.homeAt bp p) d = table.bucketAt (table.homeAt bp p) d := by
    rw [Table.bucketAt, Table.bucketAt, hMask]
  have hFrag : table₁.metadata p &&& vtHashFragMask =
      vtHashfrag (hashFn bp (table₁.buckets p).1) := by
    rw [hSame, hBuckets]
    exact h.frag p hp
  rcases h₁.reconnect_returns (hHomes p).symm ⟨hHead, hNe⟩ ((hHomes _).trans hHome) hFrag with
    ⟨d, disp', table', hReturns, hFree, hLinked, hMoved, hMask', hCount'⟩ | ⟨hReturns, hFull⟩
  · rw [hSlots, hBuckets, ← slots_of_ne hp.2] at hMoved
    refine ⟨true, table', hDisconnect.bind hReturns, hMask'.trans hMask, hCount'.trans hCount,
      Or.inl ⟨rfl, _, disp', fun hMem => hMem.2 ((slots_congr hSlots _).mp hFree), ?_, hLinked,
        hMoved⟩⟩
    exact hAt d ▸ Nat.and_le_right
  · refine ⟨false, table₁, hDisconnect.bind hReturns, hMask, hCount, Or.inr ⟨rfl, hSlots,
      _, hHead, fun d hPos hLimit hEmpty => hFull d hPos hLimit ?_⟩⟩
    rw [hAt, slots_congr hSlots]
    exact hEmpty

/-- A change to the buckets of a table that has some. -/
theorem Kept.change {table' : Table K V} {stored' : Multiset (K × V)} (h : Kept bp table stored)
    (hContents : contents (slots table') (table.bucketsMask + 1) = stored')
    (hTop : slots table' (table.bucketsMask + 1) = slots table (table.bucketsMask + 1))
    (hCount : table'.keyCount = stored'.card) (hNodup : (bp.keyClasses stored').Nodup)
    (hMask : table'.bucketsMask = table.bucketsMask) (hNe : table.bucketsMask ≠ 0) :
    Kept bp table' stored' := by
  refine ⟨hMask ▸ h.mask, hMask ▸ hContents, hCount, hNodup, fun hZero => absurd (hMask ▸ hZero) hNe,
    fun _ hEmpty => h.stopper hNe ?_⟩
  rw [← slots_eq_empty_iff, ← hTop, slots_eq_empty_iff, ← hMask]
  exact hEmpty

/-- A table that holds a pair has buckets. -/
theorem Kept.mask_ne_zero (h : Kept bp table stored) {p : Nat} (hp : p ∈ table.occupied) :
    table.bucketsMask ≠ 0 := by
  intro hZero
  obtain rfl : p = 0 := Nat.le_zero.mp (hZero ▸ hp.1)
  exact hp.2 (h.vacant hZero)

/-- A table with other links keeps its pairs. -/
theorem Kept.relink {table' : Table K V} (h : Kept bp table stored)
    (hMask : table'.bucketsMask = table.bucketsMask) (hCount : table'.keyCount = table.keyCount)
    (hSlots : slots table' = slots table) : Kept bp table' stored := by
  refine ⟨hMask ▸ h.mask, ?_, hCount.trans h.keyCount_eq, h.nodup, fun hZero => ?_,
    fun hNe hEmpty => ?_⟩
  · rw [hSlots, hMask]
    exact h.contents_eq
  · exact (slots_congr hSlots 0).mpr (h.vacant (hMask ▸ hZero))
  · rw [hMask] at hNe hEmpty
    exact h.stopper hNe ((slots_congr hSlots _).mp hEmpty)

theorem occupied_of_live {table' : Table K V} {p : Nat} {pair : K × V}
    (hSlots : slots table' = Function.update (slots table) p (.live pair))
    (hMask : table'.bucketsMask = table.bucketsMask) (hp : p ≤ table.bucketsMask) :
    table'.occupied = Insert.insert p table.occupied := by
  ext q
  change q ≤ table'.bucketsMask ∧ table'.metadata q ≠ vtEmpty ↔
    q = p ∨ q ≤ table.bucketsMask ∧ table.metadata q ≠ vtEmpty
  rw [hMask, ← slots_eq_empty_iff.ne, ← slots_eq_empty_iff.ne, hSlots]
  by_cases hEq : q = p
  · subst hEq
    simp [hp]
  · simp [hEq]

/-- A home bucket that is ready for a key of its own. -/
structure Vacated (bp : Blueprint K V) (table : Table K V) (home : Nat) (table' : Table K V) :
    Prop where
  mask : table'.bucketsMask = table.bucketsMask
  keyCount : table'.keyCount = table.keyCount
  top : slots table' (table.bucketsMask + 1) = slots table (table.bucketsMask + 1)
  contents_eq : ∀ pair, contents (Function.update (slots table') home (.live pair))
    (table.bucketsMask + 1) = pair ::ₘ contents (slots table) (table.bucketsMask + 1)
  linked : ∃ occupied disp, Linked bp table' occupied disp ∧ home ∉ occupied ∧
    Insert.insert home occupied = Insert.insert home table'.occupied

/-- The home bucket of no key is vacated, or its key could not be moved. -/
theorem vacate_returns {disp : Nat → Nat} {home : Nat}
    (h : Linked bp table table.occupied disp) (hHome : home ≤ table.bucketsMask)
    (hHomeless : ∀ p ∈ table.occupied, table.homeAt bp p ≠ home) :
    ∃ vacated table', ReturnsTo (fun fuel => vacate bp fuel table home) (vacated, table') ∧
      ((vacated = true ∧ Vacated bp table home table') ∨
        vacated = false ∧ table'.bucketsMask = table.bucketsMask ∧
          table'.keyCount = table.keyCount ∧ slots table' = slots table ∧ Crowded table) := by
  unfold vacate
  by_cases hVacant : table.metadata home = vtEmpty
  · have hEmpty : slots table home = .empty := slots_eq_empty_iff.mpr hVacant
    simp only [if_neg (not_not_intro hVacant)]
    refine ⟨true, table, ReturnsTo.pure _, Or.inl ⟨rfl, rfl, rfl, rfl, fun pair => ?_,
      table.occupied, disp, h, fun hMem => hMem.2 hVacant, rfl⟩⟩
    exact contents_update_live (Nat.lt_succ_of_le hHome) (by rw [hEmpty]; rfl) pair
  · have hMem : home ∈ table.occupied := ⟨hHome, hVacant⟩
    simp only [if_pos hVacant]
    obtain ⟨vacated, table', hReturns, hMask, hCount, hCases⟩ :=
      evict_returns h hMem (hHomeless home hMem)
    refine ⟨vacated, table', hReturns, hCases.imp ?_ fun hFull => ?_⟩
    · rintro ⟨hVacated, empty, disp', hFree, hLe, hLinked, hSlots⟩
      have hNe : home ≠ empty := fun hEq => hFree (hEq ▸ hMem)
      have hLive : slots table home = .live (table.buckets home) := slots_of_ne hVacant
      have hEmpty : slots table empty = .empty := by
        refine slots_eq_empty_iff.mpr ?_
        by_contra hNot
        exact hFree ⟨hLe, hNot⟩
      have hNone : (slots table empty).entries = 0 := by rw [hEmpty]; rfl
      rw [hLive] at hSlots
      refine ⟨hVacated, hMask, hCount, ?_, fun pair => ?_, _, disp', hLinked, ?_, ?_⟩
      · rw [hSlots, Function.update_of_ne (Nat.ne_of_gt (Nat.lt_succ_of_le hLe))]
      · -- The pair of the home bucket lies in the bucket that was empty.
        have hMoved := contents_update_live (Nat.lt_succ_of_le hLe) hNone (table.buckets home)
        have hAt : Function.update (slots table) empty (.live (table.buckets home)) home =
            .live (table.buckets home) := by rw [Function.update_of_ne hNe, hLive]
        have hSwap := contents_update_swap (Nat.lt_succ_of_le hHome) hAt pair
        rw [hMoved, Multiset.cons_swap] at hSwap
        rw [hSlots]
        exact (Multiset.cons_inj_right _).mp hSwap
      · rintro (hEq | hLeft)
        · exact hNe hEq
        · exact hLeft.2 rfl
      · rw [occupied_of_live hSlots hMask hLe, Set.insert_comm, Set.insert_sdiff_singleton,
          Set.insert_comm]
    · obtain ⟨hVacated, hSlots, hCrowded⟩ := hFull
      exact ⟨hVacated, hMask, hCount, hSlots, hCrowded⟩

namespace Sound

/-- A home bucket that no key of its own occupies is the home of none. -/
theorem homeless (h : Sound bp table stored) {home : Nat} (hHome : table.inHome home = false) :
    ∀ p ∈ table.occupied, table.homeAt bp p ≠ home := by
  obtain ⟨disp, hLinked⟩ := h.linked
  rintro p hp rfl
  obtain ⟨hHead, hFirst, _⟩ := hLinked.chained.headed p hp
  rw [hLinked.flag _ hHead, decide_eq_true hFirst] at hHome
  cases hHome

theorem absent_of_homeless (h : Sound bp table stored)
    (hHome : ∀ p ∈ table.occupied, table.homeAt bp p ≠ table.homeBucket bp key) :
    bp.cls key ∉ bp.keyClasses stored := by
  refine Blueprint.notMem_keyClasses.mpr fun pair hPair => ?_
  obtain ⟨p, hp, rfl⟩ := h.mem_stored.mp hPair
  refine Bool.eq_false_iff.mpr fun hMatch => hHome p hp ?_
  exact Table.homeBucket_congr hMatch

variable {maxLoad : ℚ}

/-- A pair with a new key was written to a bucket. -/
theorem added (h : Sound bp table stored) (hAbsent : bp.cls key ∉ bp.keyClasses stored)
    {table' : Table K V} {disp : Nat → Nat} {p : Nat} (hLinked : Linked bp table' table'.occupied disp)
    (hContents : contents (slots table') (table.bucketsMask + 1) = (key, val) ::ₘ stored)
    (hTop : slots table' (table.bucketsMask + 1) = slots table (table.bucketsMask + 1))
    (hCount : table'.keyCount = table.keyCount + 1) (hAt : p ∈ table'.occupied)
    (hPair : table'.buckets p = (key, val)) (hMask : table'.bucketsMask = table.bucketsMask)
    (hLoad : ¬ table.Overloaded maxLoad) :
    Added maxLoad bp table stored key val table'
      (table.itrAt p (some (table.homeBucket bp key))) := by
  have hCard : table'.keyCount = ((key, val) ::ₘ stored).card := by
    rw [Multiset.card_cons, hCount, h.keyCount_eq]
  have hNodup : (bp.keyClasses ((key, val) ::ₘ stored)).Nodup :=
    Blueprint.keyClasses_cons (key, val) stored ▸ Multiset.nodup_cons.mpr ⟨hAbsent, h.nodup⟩
  refine ⟨⟨h.change hContents hTop hCard hNodup hMask (mask_ne_zero hLoad), _, hLinked⟩, hLoad,
    hMask, p, ⟨rfl, rfl, congrArg (· + 1) hMask.symm, hAt, ?_⟩, hPair⟩
  rintro _ ⟨⟩
  rw [Table.homeAt, hPair, Table.homeBucket, Table.homeBucket, hMask]

/-- The key begins a chain at its home bucket, from which another key may be moved. -/
theorem insertAtHome_returns (h : Sound bp table stored)
    (hHome : table.inHome (table.homeBucket bp key) = false) :
    ∃ table' itr, ReturnsTo (fun fuel => insertAtHome maxLoad bp fuel table key val)
        (table', itr) ∧
      (Added maxLoad bp table stored key val table' itr ∨
        Refused maxLoad bp table stored table' itr) := by
  have hHomeless := h.homeless hHome
  have hAbsent := h.absent_of_homeless hHomeless
  have hLe := table.homeBucket_le bp key
  unfold insertAtHome
  by_cases hLoad : table.Overloaded maxLoad
  · simp only [if_pos hLoad]
    exact ⟨table, endItr, ReturnsTo.pure _, Or.inr ⟨h.toKept, rfl, rfl, Or.inl hLoad⟩⟩
  simp only [if_neg hLoad]
  obtain ⟨disp, hLinked⟩ := h.linked
  have hBegun : vtHashfrag (hashFn bp key) ||| vtInHomeBucketMask ||| vtDisplacementMask ≠
      vtEmpty := by
    refine ne_empty_of_displacement ?_
    rw [(begun (vtHashfrag_and _)).1]
    decide
  obtain ⟨vacated, table₁, hVacate, ⟨rfl, hVacated⟩ | ⟨rfl, hMask, hCount, hSlots, hCrowded⟩⟩ :=
    vacate_returns hLinked hLe hHomeless
  · have hHomes : table₁.homeBucket bp key = table.homeBucket bp key := by
      rw [Table.homeBucket, hVacated.mask, Table.homeBucket]
    have hWrite : slots (beginChain table₁ (table.homeBucket bp key) (vtHashfrag (hashFn bp key))
        (key, val)) = Function.update (slots table₁) (table.homeBucket bp key) (.live (key, val)) :=
      slots_write table₁ (table.homeBucket bp key) (key, val) hBegun
    obtain ⟨occupied, disp', hChains, hFree, hOccupied⟩ := hVacated.linked
    have hFree' : table₁.homeBucket bp (key, val).1 ∉ occupied := hHomes.symm ▸ hFree
    have hChain := hChains.beginChain hFree'
    rw [hHomes, hOccupied, ← occupied_of_live hWrite rfl (hVacated.mask ▸ hLe)] at hChain
    have hTop : slots (beginChain table₁ (table.homeBucket bp key) (vtHashfrag (hashFn bp key))
        (key, val)) (table.bucketsMask + 1) = slots table (table.bucketsMask + 1) := by
      rw [hWrite, Function.update_of_ne (Nat.ne_of_gt (Nat.lt_succ_of_le hLe))]
      exact hVacated.top
    have hContents : contents (slots (beginChain table₁ (table.homeBucket bp key)
        (vtHashfrag (hashFn bp key)) (key, val))) (table.bucketsMask + 1) =
          (key, val) ::ₘ stored := by
      rw [hWrite, hVacated.contents_eq, h.contents_eq]
    have hAt : table.homeBucket bp key ∈ (beginChain table₁ (table.homeBucket bp key)
        (vtHashfrag (hashFn bp key)) (key, val)).occupied := by
      rw [occupied_of_live hWrite rfl (hVacated.mask ▸ hLe)]
      exact Or.inl rfl
    have hItr : table.itrAt (table.homeBucket bp key) (some (table.homeBucket bp key)) =
        table₁.itrAt (table.homeBucket bp key) (some (table.homeBucket bp key)) := by
      rw [Table.itrAt, Table.itrAt, hVacated.mask]
    refine ⟨_, _, hVacate.bind (ReturnsTo.pure _), Or.inl ?_⟩
    dsimp only
    rw [← hItr]
    exact h.added hAbsent hChain hContents hTop (congrArg (· + 1) hVacated.keyCount) hAt
      (Function.update_self ..) hVacated.mask hLoad
  · exact ⟨table₁, endItr, hVacate.bind (ReturnsTo.pure _),
      Or.inr ⟨h.toKept.relink hMask hCount hSlots, hMask, rfl, Or.inr hCrowded⟩⟩

theorem head_mem {home : Nat} (h : Sound bp table stored) (hHome : table.inHome home = true)
    (hLe : home ≤ table.bucketsMask) : home ∈ table.occupied ∧ table.homeAt bp home = home := by
  have hMem : home ∈ table.occupied := by
    refine ⟨hLe, fun hEmpty => ?_⟩
    rw [inHome_eq, hEmpty] at hHome
    exact absurd hHome (by decide)
  obtain ⟨disp, hLinked⟩ := h.linked
  exact ⟨hMem, of_decide_eq_true ((hLinked.flag home hMem).symm.trans hHome)⟩

/-- The key joins the chain of its home bucket. -/
theorem insertInChain_returns (h : Sound bp table stored)
    (hHome : table.inHome (table.homeBucket bp key) = true)
    (hAbsent : bp.cls key ∉ bp.keyClasses stored) :
    ∃ table' itr, ReturnsTo (fun fuel => insertInChain maxLoad bp fuel table key val)
        (table', itr) ∧
      (Added maxLoad bp table stored key val table' itr ∨
        Refused maxLoad bp table stored table' itr) := by
  obtain ⟨hHead, hFirst⟩ := h.head_mem hHome (table.homeBucket_le bp key)
  obtain ⟨disp, hLinked⟩ := h.linked
  unfold insertInChain
  by_cases hLoad : table.Overloaded maxLoad
  · simp only [if_pos hLoad]
    exact ⟨table, endItr, ReturnsTo.pure _, Or.inr ⟨h.toKept, rfl, rfl, Or.inl hLoad⟩⟩
  simp only [if_neg hLoad]
  rcases findFirstEmpty_cases table (table.homeBucket bp key) with
    ⟨d, hPos, hLimit, hEmpty, hFound⟩ | ⟨hFull, hNone⟩
  · have hFree : table.bucketAt (table.homeBucket bp key) d ∉ table.occupied :=
      fun hMem => hMem.2 hEmpty
    obtain ⟨prev, hPrev, hPlace, hPrevHome, hAfter, hBefore⟩ :=
      hLinked.findInsertLocation_returns hHead hFirst hPos hLimit hFree
    have hPrevHome' : table.homeAt bp prev = table.homeBucket bp (key, val).1 := hPrevHome
    have hJoined := (hLinked.linkAfter hPrev hPrevHome' hFree hAfter hBefore).setCount
      (table.keyCount + 1)
    have hNe : prev ≠ table.bucketAt (table.homeBucket bp key) d := fun hEq => hFree (hEq ▸ hPrev)
    have hLe : table.bucketAt (table.homeBucket bp key) d ≤ table.bucketsMask := Nat.and_le_right
    have hSlots : slots (linkAfter table prev (table.bucketAt (table.homeBucket bp key) d) d
        (vtHashfrag (hashFn bp key)) (key, val)) = Function.update (slots table)
          (table.bucketAt (table.homeBucket bp key) d) (.live (key, val)) :=
      slots_linkAfter hLimit.le hPos (vtHashfrag_and _) hNe (hLinked.link_pos hPrev)
    have hOccupied := occupied_of_live hSlots rfl hLe
    rw [← hOccupied] at hJoined
    simp only [hFound]
    refine ⟨_, _, hPlace.bind (ReturnsTo.pure _), Or.inl (h.added hAbsent hJoined ?_ ?_ rfl ?_
      (Function.update_self ..) rfl hLoad)⟩
    · refine (congrArg (contents · _) hSlots).trans ?_
      rw [contents_update_live (Nat.lt_succ_of_le hLe) (by rw [slots_eq_empty_iff.mpr hEmpty]; rfl),
        h.contents_eq]
    · refine (congrFun hSlots _).trans ?_
      exact Function.update_of_ne (Nat.ne_of_gt (Nat.lt_succ_of_le hLe)) ..
    · exact hOccupied ▸ Or.inl rfl
  · simp only [hNone]
    exact ⟨table, endItr, ReturnsTo.pure _,
      Or.inr ⟨h.toKept, rfl, rfl, Or.inr ⟨_, hHead, hFull⟩⟩⟩

/-- The loop over the chain of a home bucket meets the matching key, if there is one. -/
theorem searchChain_returns (h : Sound bp table stored)
    (hHome : table.inHome (table.homeBucket bp key) = true) :
    ∃ found, ReturnsTo (fun fuel => searchChain bp fuel table (table.homeBucket bp key) key) found ∧
      ((∃ p ∈ table.occupied, found = some p ∧ bp.cmprKeys (table.buckets p).1 key = true) ∨
        found = none ∧ bp.cls key ∉ bp.keyClasses stored) := by
  obtain ⟨hHead, hFirst⟩ := h.head_mem hHome (table.homeBucket_le bp key)
  obtain ⟨disp, hLinked⟩ := h.linked
  obtain ⟨found, hReturns, hCases⟩ := hLinked.searchChain_returns hHead hFirst
  refine ⟨found, hReturns, hCases.imp_right fun hNone => ⟨hNone.1, ?_⟩⟩
  refine Blueprint.notMem_keyClasses.mpr fun pair hPair => ?_
  obtain ⟨p, hp, rfl⟩ := h.mem_stored.mp hPair
  exact hNone.2 p hp

/-- Overwriting the pair of a bucket by one whose key matches. -/
theorem overwrite (h : Sound bp table stored) {p : Nat} (hp : p ∈ table.occupied)
    (hKey : bp.cmprKeys (table.buckets p).1 key = true) :
    ∃ rest, stored = table.buckets p ::ₘ rest ∧ Sound bp
      { table with buckets := Function.update table.buckets p (key, val) } ((key, val) ::ₘ rest) := by
  obtain ⟨rest, hStored⟩ := Multiset.exists_cons_of_mem (h.mem_stored.mpr ⟨p, hp, rfl⟩)
  have hMaskNe := h.mask_ne_zero hp
  have hSlots := slots_write table p (key, val) hp.2
  rw [Function.update_eq_self] at hSlots
  have hOccupied : Table.occupied { table with
      buckets := Function.update table.buckets p (key, val) } = table.occupied := rfl
  refine ⟨rest, hStored, h.change ?_ ?_ ?_ ?_ rfl hMaskNe, ?_⟩
  · have hSwap := contents_update_swap (Nat.lt_succ_of_le hp.1) (slots_of_ne hp.2) (key, val)
    rw [h.contents_eq, hStored, Multiset.cons_swap] at hSwap
    exact (congrArg (contents · _) hSlots).trans ((Multiset.cons_inj_right _).mp hSwap)
  · refine (congrFun hSlots _).trans ?_
    exact Function.update_of_ne (Nat.ne_of_gt (Nat.lt_succ_of_le hp.1)) ..
  · rw [h.keyCount_eq, hStored, Multiset.card_cons, Multiset.card_cons]
  · have hNodup := h.nodup
    rw [hStored, Blueprint.keyClasses_cons, bp.cls_eq_iff.mpr hKey] at hNodup
    exact Blueprint.keyClasses_cons (key, val) rest ▸ hNodup
  · obtain ⟨disp, hLinked⟩ := h.linked
    have hHome : table.homeBucket bp (key, val).1 = table.homeAt bp p :=
      (Table.homeBucket_congr hKey).symm
    have hFrag : table.metadata p &&& vtHashFragMask = vtHashfrag (hashFn bp (key, val).1) := by
      rw [hLinked.frag p hp, hashFn, hashFn, bp.hashKey_congr hKey]
    have hSeated := hLinked.reseat hHome rfl hFrag rfl
    rw [Function.update_eq_self] at hSeated
    exact ⟨disp, hOccupied ▸ hSeated⟩

theorem met (h : Sound bp table stored) {p : Nat} (hp : p ∈ table.occupied)
    (hKey : bp.cmprKeys (table.buckets p).1 key = true) {replace : Bool} :
    Met bp table stored key val replace
      { table with buckets :=
          if replace then Function.update table.buckets p (key, val) else table.buckets }
      (table.itrAt p (some (table.homeBucket bp key))) := by
  obtain ⟨rest, hStored, hSound⟩ : ∃ rest, stored = table.buckets p ::ₘ rest ∧ Sound bp
      { table with buckets := Function.update table.buckets p (key, val) } ((key, val) ::ₘ rest) :=
    h.overwrite hp hKey
  have hHomes : table.homeBucket bp (table.buckets p).1 = table.homeBucket bp key :=
    Table.homeBucket_congr hKey
  cases replace with
  | true =>
      refine ⟨⟨_, rest, hStored, hKey, hSound⟩, rfl, p, ⟨rfl, rfl, rfl, hp, ?_⟩, ?_⟩
      · rintro _ ⟨⟩
        simp only [Table.homeAt, if_true, Function.update_self]
        rfl
      · simp only [if_true, Function.update_self]
        exact bp.cmprKeys_refl key
  | false =>
      refine ⟨⟨_, rest, hStored, hKey, hStored ▸ h⟩, rfl, p, ⟨rfl, rfl, rfl, hp, ?_⟩, hKey⟩
      rintro _ ⟨⟩
      exact hHomes.symm

/-- One attempt to insert a key returns. -/
theorem insertRaw_returns (h : Sound bp table stored) (maxLoad : ℚ) (key : K) (val : V)
    (unique replace : Bool) (hUnique : unique = true → bp.cls key ∉ bp.keyClasses stored) :
    ∃ table' itr, ReturnsTo (fun fuel => insertRaw maxLoad bp fuel table key val unique replace)
        (table', itr) ∧
      ((bp.cls key ∉ bp.keyClasses stored ∧ (Added maxLoad bp table stored key val table' itr ∨
          Refused maxLoad bp table stored table' itr)) ∨
        Met bp table stored key val replace table' itr) := by
  unfold insertRaw
  cases hHome : table.inHome (table.homeBucket bp key) with
  | false =>
      obtain ⟨table', itr, hReturns, hCases⟩ := h.insertAtHome_returns hHome
      simp only [hHome, Bool.not_false, if_true]
      exact ⟨table', itr, hReturns, Or.inl ⟨h.absent_of_homeless (h.homeless hHome), hCases⟩⟩
  | true =>
      simp only [hHome, Bool.not_true, Bool.false_eq_true, if_false]
      cases unique with
      | true =>
          obtain ⟨table', itr, hReturns, hCases⟩ := h.insertInChain_returns hHome (hUnique rfl)
          simp only [if_true]
          exact ⟨table', itr, (ReturnsTo.pure none).bind hReturns, Or.inl ⟨hUnique rfl, hCases⟩⟩
      | false =>
          obtain ⟨found, hSearch, ⟨p, hp, rfl, hKey⟩ | ⟨rfl, hAbsent⟩⟩ :=
            h.searchChain_returns hHome
          all_goals simp only [Bool.false_eq_true, if_false]
          · exact ⟨_, _, hSearch.bind (ReturnsTo.pure _), Or.inr (h.met hp hKey)⟩
          · obtain ⟨table', itr, hReturns, hCases⟩ := h.insertInChain_returns hHome hAbsent
            exact ⟨table', itr, hSearch.bind hReturns, Or.inl ⟨hAbsent, hCases⟩⟩

end Sound

end HashBench.Verstable
