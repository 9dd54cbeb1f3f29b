import HashBench.Verstable.Insert

/-! Lookups and erasures. An erasure moves the last key of the chain to the bucket
of the erased key, and says whether that key came from a bucket further on. -/
namespace HashBench.Verstable

open Search Chains OpenAddressing

variable {K V : Type} {bp : Blueprint K V} {table : Table K V} {key : K} {val : V}
  {stored : Multiset (K × V)} {itr : Itr} {p : Nat}

/-- What the removal of the key in bucket `p` leaves: the bucket `last` is empty,
and its pair is in bucket `p`. -/
structure Removed (bp : Blueprint K V) (table : Table K V) (p last : Nat) (table' : Table K V) :
    Prop where
  last_mem : last ∈ table.occupied
  slots_eq : slots table' =
    Function.update (Function.update (slots table) p (slots table last)) last .empty
  mask : table'.bucketsMask = table.bucketsMask
  keyCount : table'.keyCount = table.keyCount
  home : table.homeAt bp last = table.homeAt bp p
  linked : ∃ disp, Linked bp table' (table.occupied \ {last}) disp

namespace Linked

variable {disp : Nat → Nat}

/-- The only key of a chain is removed. -/
theorem remove_only (h : Linked bp table table.occupied disp) (hp : p ∈ table.occupied)
    (hHome : table.homeAt bp p = p) (hLast : table.isLast p = true) :
    Removed bp table p p
      { table with metadata := Function.update table.metadata p vtEmpty } := by
  have hDropped : Linked bp table (table.occupied \ {p}) disp :=
    ⟨h.mask, h.chained.drop hp hHome (isLast_iff.mp hLast), fun q hq => h.frag q hq.1,
      fun q hq => h.flag q hq.1⟩
  refine ⟨hp, ?_, rfl, rfl, rfl, disp, hDropped.ignore (fun hMem => hMem.2 rfl) vtEmpty⟩
  rw [slots_clear, Function.update_eq_self]

/-- The last key of a chain of several is removed. -/
theorem eraseLast_returns (h : Linked bp table table.occupied disp) (hp : p ∈ table.occupied)
    (hNe : table.homeAt bp p ≠ p) (hLast : table.isLast p = true) :
    ∃ table', ReturnsTo (fun fuel => eraseLast fuel table (table.homeAt bp p) p) table' ∧
      Removed bp table p p table' := by
  obtain ⟨prev, hPrev, hFound, hHome, hLink⟩ := h.findPrevious_returns hp hNe
  obtain ⟨hEnded, hFrag, hFlag⟩ := ended (x := table.metadata prev)
  have hUnlinked := h.unlink hPrev hp hHome.symm hLink (hEnded.trans (isLast_iff.mp hLast).symm)
    hFrag hFlag
  refine ⟨_, hFound.bind (ReturnsTo.pure _), hp, ?_, rfl, rfl, rfl, disp,
    hUnlinked.ignore (fun hMem => hMem.2 rfl) vtEmpty⟩
  rw [Function.update_eq_self]
  refine (slots_clear { table with metadata := Function.update table.metadata prev _ } p).trans ?_
  rw [slots_relink table (ne_empty_of_displacement ?_) (h.ne_empty hPrev)]
  rw [hEnded]
  decide

/-- A key that others follow is removed: the last key takes its place. -/
theorem eraseInner_returns (h : Linked bp table table.occupied disp) (hp : p ∈ table.occupied)
    (hNotLast : table.isLast p = false) :
    ∃ table' last, ReturnsTo (fun fuel => eraseInner fuel table (table.homeAt bp p) p)
        (table', last) ∧ Removed bp table p last table' := by
  have hLink : table.link p ≠ 2047 := fun hEq => by
    rw [isLast_iff.mpr hEq] at hNotLast
    cases hNotLast
  obtain ⟨count, hSearch, hPrev, hPrevHome, hMem, hHome, hBefore, hStop⟩ :=
    h.chained.search_last hp hLink fun q => isLast_iff
  refine ⟨_, _, hSearch.bind (ReturnsTo.pure _), ?_⟩
  change Removed bp table p (walk table.bucketAt table.link (table.homeAt bp p) p (count + 1)) _
  dsimp only [Table.chain]
  generalize walk table.bucketAt table.link (table.homeAt bp p) p (count + 1) = last at *
  generalize walk table.bucketAt table.link (table.homeAt bp p) p count = prev at *
  obtain ⟨hLink₁, hFrag₁, hFlag₁⟩ :=
    refragged (x := table.metadata p) (y := table.metadata last)
  have hSeated := h.reseat hHome hLink₁ (hFrag₁.trans (h.frag last hMem)) hFlag₁
  obtain ⟨hEnded, hFrag, hFlag⟩ := ended (x := Function.update table.metadata p
    (table.metadata p &&& ~~~vtHashFragMask ||| table.metadata last &&& vtHashFragMask) prev)
  have hHomes : Table.homeAt bp { table with
      buckets := Function.update table.buckets p (table.buckets last)
      metadata := Function.update table.metadata p (table.metadata p &&& ~~~vtHashFragMask |||
        table.metadata last &&& vtHashFragMask) } = table.homeAt bp := homeAt_reseat hHome
  have hLinks : Table.link { table with
      buckets := Function.update table.buckets p (table.buckets last)
      metadata := Function.update table.metadata p (table.metadata p &&& ~~~vtHashFragMask |||
        table.metadata last &&& vtHashFragMask) } = table.link := link_reseat hLink₁
  have hUnlinked := hSeated.unlink hPrev hMem (by rw [hHomes, hHome, hPrevHome])
    (by rw [hLinks, hBefore]) (by rw [hEnded, hLinks, isLast_iff.mp hStop]) hFrag hFlag
  refine ⟨hMem, ?_, rfl, rfl, hHome, disp, hUnlinked.ignore (fun hMem => hMem.2 rfl) vtEmpty⟩
  have hWrite := slots_write table p (table.buckets last)
    (ne_empty_of_displacement (Nat.lt_of_lt_of_eq (h.link_pos hp) hLink₁.symm))
  have hRelink := slots_relink { table with
    buckets := Function.update table.buckets p (table.buckets last)
    metadata := Function.update table.metadata p (table.metadata p &&& ~~~vtHashFragMask |||
      table.metadata last &&& vtHashFragMask) }
    (ne_empty_of_displacement (Nat.lt_of_lt_of_eq (Nat.succ_pos 2046) hEnded.symm)) (hSeated.ne_empty hPrev)
  rw [slots_of_ne hMem.2, ← hWrite, ← hRelink]
  exact slots_clear { table with
    buckets := Function.update table.buckets p (table.buckets last)
    metadata := Function.update _ prev _ } last

end Linked

namespace Sound

/-- The home of the key at an iterator, which may not have recorded it. -/
theorem homeOf_eq (h : Sound bp table stored) (hAt : PointsAt bp table itr p) :
    homeOf bp table itr = table.homeAt bp p := by
  obtain ⟨disp, hLinked⟩ := h.linked
  unfold homeOf
  cases hHome : itr.homeBucket with
  | some home => exact hAt.home home hHome
  | none =>
      dsimp only
      rw [hAt.metadatum, hLinked.flag p hAt.occupied]
      split_ifs with hFirst
      · exact (of_decide_eq_true hFirst).symm
      · rfl

theorem get_returns (h : Sound bp table stored) (key : K) :
    ∃ itr, ReturnsTo (fun fuel => get bp fuel table key) itr ∧
      ((∃ p, PointsAt bp table itr p ∧ bp.cmprKeys (table.buckets p).1 key = true) ∨
        isEnd itr = true ∧ bp.cls key ∉ bp.keyClasses stored) := by
  unfold get
  cases hHome : table.inHome (table.homeBucket bp key) with
  | false =>
      simp only [hHome, Bool.not_false, if_true]
      exact ⟨endItr, ReturnsTo.pure _, Or.inr ⟨rfl, h.absent_of_homeless (h.homeless hHome)⟩⟩
  | true =>
      simp only [hHome, Bool.not_true, Bool.false_eq_true, if_false]
      obtain ⟨found, hSearch, ⟨p, hp, rfl, hKey⟩ | ⟨rfl, hAbsent⟩⟩ := h.searchChain_returns hHome
      · refine ⟨_, hSearch.bind (ReturnsTo.pure _), Or.inl ⟨p, ⟨rfl, rfl, rfl, hp, ?_⟩, hKey⟩⟩
        rintro _ ⟨⟩
        exact (Table.homeBucket_congr hKey).symm
      · exact ⟨_, hSearch.bind (ReturnsTo.pure _), Or.inr ⟨rfl, hAbsent⟩⟩

/-- The table after a key was removed. -/
theorem removed (h : Sound bp table stored) (hp : p ∈ table.occupied) {last : Nat}
    {table' : Table K V}
    (hRemoved : Removed bp { table with keyCount := table.keyCount - 1 } p last table') :
    ∃ rest, stored = table.buckets p ::ₘ rest ∧ Sound bp table' rest := by
  obtain ⟨hMem, hSlots, hMask, hCount, _, disp, hLinked⟩ := hRemoved
  change slots table' = Function.update (Function.update (slots table) p (slots table last)) last
    .empty at hSlots
  have hMem : last ∈ table.occupied := hMem
  have hLive := slots_of_ne hp.2
  have hLastLive := slots_of_ne hMem.2
  have hStored : stored = table.buckets p ::ₘ contents (slots table') (table.bucketsMask + 1) := by
    rw [← h.contents_eq, hSlots]
    by_cases hEq : last = p
    · subst hEq
      rw [Function.update_eq_self]
      exact (contents_update_cleared (h.lt_succ hp) hLive Slot.entries_empty).symm
    · have hSwap := contents_update_swap (h.lt_succ hp) hLive (table.buckets last)
      have hMoved : Function.update (slots table) p (.live (table.buckets last)) last =
          .live (table.buckets last) := by rw [Function.update_of_ne hEq, hLastLive]
      rw [← contents_update_cleared (h.lt_succ hMem) hMoved Slot.entries_empty,
        Multiset.cons_swap] at hSwap
      rw [hLastLive]
      exact ((Multiset.cons_inj_right _).mp hSwap).symm
  have hOccupied : table'.occupied = table.occupied \ {last} := by
    ext q
    change q ≤ table'.bucketsMask ∧ table'.metadata q ≠ vtEmpty ↔
      (q ≤ table.bucketsMask ∧ table.metadata q ≠ vtEmpty) ∧ q ≠ last
    rw [hMask, ← slots_eq_empty_iff.ne, ← slots_eq_empty_iff.ne, hSlots]
    by_cases hEq : q = last
    · subst hEq
      simp
    · by_cases hEq' : q = p
      · subst hEq'
        simp [hEq, hLive, hLastLive]
      · simp [hEq, hEq']
  have hNodup := h.nodup
  rw [hStored, Blueprint.keyClasses_cons] at hNodup
  refine ⟨_, hStored, h.change rfl ?_ ?_ (Multiset.nodup_cons.mp hNodup).2 hMask
    (h.mask_ne_zero hp), disp, hOccupied ▸ hLinked⟩
  · rw [hSlots, Function.update_of_ne (Nat.ne_of_gt (h.lt_succ hMem)),
      Function.update_of_ne (Nat.ne_of_gt (h.lt_succ hp))]
  · have hCard := congrArg Multiset.card hStored
    rw [Multiset.card_cons] at hCard
    rw [hCount, h.keyCount_eq, hCard]
    rfl

/-- Erasing at an iterator returns. The iteration goes on past the bucket unless a
key from further on was moved to it. -/
theorem eraseItrRaw_returns (h : Sound bp table stored) (hAt : PointsAt bp table itr p) :
    ∃ table' last rest,
      ReturnsTo (fun fuel => eraseItrRaw bp fuel table itr) (table', !decide (last > p)) ∧
      stored = table.buckets p ::ₘ rest ∧ Sound bp table' rest ∧
      table'.bucketsMask = table.bucketsMask ∧ last ∈ table.occupied ∧
      table.homeAt bp last = table.homeAt bp p ∧ slots table' =
        Function.update (Function.update (slots table) p (slots table last)) last .empty := by
  obtain ⟨disp, hLinked⟩ := h.linked
  have hHomeOf : homeOf bp { table with keyCount := table.keyCount - 1 } itr =
      Table.homeAt bp { table with keyCount := table.keyCount - 1 } p := h.homeOf_eq hAt
  have hLinked : Linked bp { table with keyCount := table.keyCount - 1 }
      (Table.occupied { table with keyCount := table.keyCount - 1 }) disp := hLinked.setCount _
  have hp : p ∈ Table.occupied { table with keyCount := table.keyCount - 1 } := hAt.occupied
  suffices hRemoved : ∃ table' last,
      ReturnsTo (fun fuel => eraseItrRaw bp fuel table itr) (table', !decide (last > p)) ∧
      Removed bp { table with keyCount := table.keyCount - 1 } p last table' by
    obtain ⟨table', last, hReturns, hRemoved⟩ := hRemoved
    obtain ⟨rest, hStored, hSound⟩ := h.removed hAt.occupied hRemoved
    exact ⟨table', last, rest, hReturns, hStored, hSound, hRemoved.mask, hRemoved.last_mem,
      hRemoved.home, hRemoved.slots_eq⟩
  unfold eraseItrRaw
  generalize ({ table with keyCount := table.keyCount - 1 } : Table K V) = lessened at *
  simp only [hHomeOf, hAt.metadatum]
  have hFlag := hLinked.flag p hp
  have hSelf : (!decide (p > p)) = true := by simp
  by_cases hLast : lessened.isLast p = true
  · by_cases hHome : lessened.homeAt bp p = p
    · simp only [hFlag, hHome, hLast, decide_true, Bool.and_self, if_true]
      exact ⟨_, p, hSelf ▸ ReturnsTo.pure _, hLinked.remove_only hp hHome hLast⟩
    · obtain ⟨table', hReturns, hRemoved⟩ := hLinked.eraseLast_returns hp hHome hLast
      simp only [hFlag, hHome, hLast, decide_false, Bool.false_and, Bool.false_eq_true, if_false,
        if_true]
      exact ⟨table', p, hSelf ▸ hReturns.bind (ReturnsTo.pure _), hRemoved⟩
  · obtain ⟨table', last, hReturns, hRemoved⟩ :=
      hLinked.eraseInner_returns hp (Bool.eq_false_iff.mpr hLast)
    simp only [hLast, Bool.and_false, Bool.false_eq_true, if_false]
    exact ⟨table', last, hReturns.bind (ReturnsTo.pure _), hRemoved⟩

/-- `_erase` takes out the pair whose key matches, if there is one. -/
theorem erase_returns (h : Sound bp table stored) (key : K) :
    ∃ table' erased, ReturnsTo (fun fuel => erase bp fuel table key) (table', erased) ∧
      ((erased = true ∧ ∃ pair rest, stored = pair ::ₘ rest ∧ bp.cmprKeys pair.1 key = true ∧
          Sound bp table' rest ∧ table'.bucketsMask = table.bucketsMask) ∨
        erased = false ∧ bp.cls key ∉ bp.keyClasses stored ∧ table' = table) := by
  obtain ⟨itr, hGet, ⟨p, hAt, hKey⟩ | ⟨hEnd, hAbsent⟩⟩ := h.get_returns key
  · obtain ⟨table', last, rest, hErase, hStored, hSound, hMask, _⟩ := h.eraseItrRaw_returns hAt
    refine ⟨table', true, hGet.bind ?_, Or.inl ⟨rfl, _, rest, hStored, hKey, hSound, hMask⟩⟩
    simp only [hAt.not_end, Bool.false_eq_true, if_false]
    exact hErase.bind (ReturnsTo.pure _)
  · refine ⟨table, false, hGet.bind ?_, Or.inr ⟨rfl, hAbsent, rfl⟩⟩
    simp only [hEnd, if_true]
    exact ReturnsTo.pure _

end Sound

end HashBench.Verstable
