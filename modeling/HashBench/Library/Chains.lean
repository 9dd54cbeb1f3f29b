import HashBench.Library.Search
import Mathlib.Data.Set.Insert
import Mathlib.Data.Nat.Find
import Mathlib.Logic.Function.Basic

/-! Chains of buckets inside one array. An occupied bucket belongs to the chain
of its home, at some displacement along the probe from there, and it links to
the displacement of the next bucket of that chain. A chain begins at its home
and is in the order of its displacements. -/
namespace Chains

/-- The occupied buckets are linked into one chain for each home. The limit is
the link of a last bucket. -/
structure Chained (pos : Nat → Nat → Nat) (limit : Nat) (occupied : Set Nat)
    (home link disp : Nat → Nat) : Prop where
  placed : ∀ p ∈ occupied, pos (home p) (disp p) = p
  inside : ∀ p ∈ occupied, disp p < limit
  headed : ∀ p ∈ occupied, home p ∈ occupied ∧ home (home p) = home p ∧ disp (home p) = 0
  ahead : ∀ p ∈ occupied, disp p < link p
  least : ∀ p ∈ occupied, ∀ q ∈ occupied, home q = home p → disp p < disp q → link p ≤ disp q
  linked : ∀ p ∈ occupied, link p = limit ∨ ∃ q ∈ occupied, home q = home p ∧ disp q = link p

/-- The bucket after `count` links of the chain of `home`, from `start` on. -/
def walk (pos : Nat → Nat → Nat) (link : Nat → Nat) (home start : Nat) : Nat → Nat
  | 0 => start
  | count + 1 => pos home (link (walk pos link home start count))

theorem walk_add (pos : Nat → Nat → Nat) (link : Nat → Nat) (home start count more : Nat) :
    walk pos link home start (count + more) =
      walk pos link home (walk pos link home start count) more := by
  induction more with
  | zero => rfl
  | succ more ih => rw [← Nat.add_assoc, walk, ih, walk]

namespace Chained

variable {pos : Nat → Nat → Nat} {limit : Nat} {occupied : Set Nat} {home link disp : Nat → Nat}
  {p q b start : Nat}

theorem empty (home link disp : Nat → Nat) : Chained pos limit ∅ home link disp := by
  constructor <;> intro p hp <;> cases hp

/-- Only the links of occupied buckets matter. -/
theorem congr_link (h : Chained pos limit occupied home link disp) {link' : Nat → Nat}
    (hSame : ∀ p ∈ occupied, link' p = link p) :
    Chained pos limit occupied home link' disp := by
  refine ⟨h.placed, h.inside, h.headed, fun p hp => ?_, fun p hp => ?_, fun p hp => ?_⟩
  · exact hSame p hp ▸ h.ahead p hp
  · exact hSame p hp ▸ h.least p hp
  · exact hSame p hp ▸ h.linked p hp

/-- The buckets of a chain are told apart by their displacements. -/
theorem eq_of_disp (h : Chained pos limit occupied home link disp) (hp : p ∈ occupied)
    (hq : q ∈ occupied) (hHome : home q = home p) (hDisp : disp q = disp p) : q = p := by
  rw [← h.placed q hq, hHome, hDisp, h.placed p hp]

/-- A bucket is the first of its chain exactly where it is its own home. -/
theorem home_eq_iff (h : Chained pos limit occupied home link disp) (hp : p ∈ occupied) :
    home p = p ↔ disp p = 0 := by
  obtain ⟨hMem, hHome, hZero⟩ := h.headed p hp
  constructor
  · intro hEq
    rwa [hEq] at hZero
  · intro hDisp
    exact h.eq_of_disp hp hMem hHome (hZero.trans hDisp.symm)

/-- A link that is not the last leads to the next bucket of the chain. -/
theorem step (h : Chained pos limit occupied home link disp) (hp : p ∈ occupied)
    (hNe : link p ≠ limit) :
    pos (home p) (link p) ∈ occupied ∧ home (pos (home p) (link p)) = home p ∧
      disp (pos (home p) (link p)) = link p := by
  obtain ⟨q, hq, hHome, hDisp⟩ := (h.linked p hp).resolve_left hNe
  have hPlaced := h.placed q hq
  rw [hHome, hDisp] at hPlaced
  rw [hPlaced]
  exact ⟨hq, hHome, hDisp⟩

theorem link_le (h : Chained pos limit occupied home link disp) (hp : p ∈ occupied) :
    link p ≤ limit := by
  rcases h.linked p hp with hEq | ⟨q, hq, _, hDisp⟩
  · exact hEq.le
  · exact hDisp ▸ (h.inside q hq).le

/-- Until it meets a last link a walk stays in its chain and advances. -/
theorem walk_mem (h : Chained pos limit occupied home link disp) (hs : start ∈ occupied)
    (hHome : home start = b) (count : Nat)
    (hMore : ∀ i < count, link (walk pos link b start i) ≠ limit) :
    walk pos link b start count ∈ occupied ∧ home (walk pos link b start count) = b ∧
      disp start + count ≤ disp (walk pos link b start count) := by
  induction count with
  | zero => exact ⟨hs, hHome, le_rfl⟩
  | succ count ih =>
      obtain ⟨hMem, hHome, hLe⟩ := ih fun i hi => hMore i (Nat.lt_succ_of_lt hi)
      obtain ⟨hNext, hNextHome, hDisp⟩ := h.step hMem (hMore count (Nat.lt_succ_self count))
      rw [hHome] at hNext hNextHome hDisp
      refine ⟨hNext, hNextHome, ?_⟩
      have hAhead := h.ahead _ hMem
      rw [walk, hDisp]
      omega

/-- A walk meets the last bucket of its chain. -/
theorem walk_ends (h : Chained pos limit occupied home link disp) (hs : start ∈ occupied)
    (hHome : home start = b) :
    ∃ count, link (walk pos link b start count) = limit ∧
      ∀ i < count, link (walk pos link b start i) ≠ limit := by
  have hExists : ∃ count, link (walk pos link b start count) = limit := by
    by_contra hNone
    rw [not_exists] at hNone
    obtain ⟨hMem, _, hLe⟩ := h.walk_mem hs hHome limit fun i _ => hNone i
    have hInside := h.inside _ hMem
    omega
  classical
  exact ⟨Nat.find hExists, Nat.find_spec hExists, fun i hi => Nat.find_min hExists hi⟩

/-- A walk meets every later bucket of its chain, and before it only earlier ones. -/
theorem walk_reaches (h : Chained pos limit occupied home link disp) (hs : start ∈ occupied)
    (hHome : home start = b) (hp : p ∈ occupied) (hHomeP : home p = b)
    (hLe : disp start ≤ disp p) :
    ∃ count, walk pos link b start count = p ∧
      ∀ i < count, link (walk pos link b start i) ≠ limit := by
  -- As long as the walk is before `p`, its next bucket is not past `p`.
  have hRounds (count : Nat) : (∃ i, walk pos link b start i = p ∧
      ∀ i' < i, link (walk pos link b start i') ≠ limit) ∨
      (∀ i < count, link (walk pos link b start i) ≠ limit) ∧
        disp (walk pos link b start count) < disp p := by
    induction count with
    | zero =>
        rcases Nat.lt_or_eq_of_le hLe with hLt | hEq
        · exact Or.inr ⟨fun i hi => absurd hi (Nat.not_lt_zero i), hLt⟩
        · have hSame := h.eq_of_disp hp hs (hHome.trans hHomeP.symm) hEq
          exact Or.inl ⟨0, hSame, fun i hi => absurd hi (Nat.not_lt_zero i)⟩
    | succ count ih =>
        refine ih.elim Or.inl fun hEarlier => ?_
        obtain ⟨hMore, hBefore⟩ := hEarlier
        obtain ⟨hMem, hChain, _⟩ := h.walk_mem hs hHome _ hMore
        have hLink := h.least _ hMem p hp (hHomeP.trans hChain.symm) hBefore
        have hNe : link (walk pos link b start count) ≠ limit :=
          Nat.ne_of_lt (hLink.trans_lt (h.inside p hp))
        have hMore' : ∀ i < count + 1, link (walk pos link b start i) ≠ limit := by
          intro i hi
          rcases Nat.lt_succ_iff_lt_or_eq.mp hi with hLt | rfl
          · exact hMore i hLt
          · exact hNe
        obtain ⟨hNext, hNextHome, hDisp⟩ := h.step hMem hNe
        rw [hChain] at hNext hNextHome hDisp
        rcases Nat.lt_or_eq_of_le hLink with hLt | hEq
        · exact Or.inr ⟨hMore', hDisp.trans_lt hLt⟩
        · have hSame := h.eq_of_disp hp hNext (hNextHome.trans hHomeP.symm) (hDisp.trans hEq)
          exact Or.inl ⟨count + 1, hSame, hMore'⟩
  refine (hRounds (disp p)).elim id fun hEarlier => ?_
  obtain ⟨_, _, hFar⟩ := h.walk_mem hs hHome _ hEarlier.1
  omega

open Search in
/-- A loop over a chain that stops at its last bucket, if not before, returns at
the first bucket at which it stops. -/
theorem search_returns (h : Chained pos limit occupied home link disp) (hs : start ∈ occupied)
    (hHome : home start = b) (stop : Nat → Bool)
    (hLast : ∀ p ∈ occupied, home p = b → link p = limit → stop p = true) :
    ∃ count, ReturnsTo (fun fuel =>
        search stop (fun _ acc => acc) (walk pos link b start) fuel 0 ()) (count, ()) ∧
      walk pos link b start count ∈ occupied ∧ home (walk pos link b start count) = b ∧
      stop (walk pos link b start count) = true ∧
      ∀ i < count, stop (walk pos link b start i) = false ∧
        link (walk pos link b start i) ≠ limit := by
  obtain ⟨last, hEnd, hMore⟩ := h.walk_ends hs hHome
  obtain ⟨hMem, hChain, _⟩ := h.walk_mem hs hHome _ hMore
  have hExists : ∃ count, stop (walk pos link b start count) = true :=
    ⟨last, hLast _ hMem hChain hEnd⟩
  classical
  have hLe : Nat.find hExists ≤ last := Nat.find_min' hExists (hLast _ hMem hChain hEnd)
  obtain ⟨hMem', hChain', _⟩ :=
    h.walk_mem hs hHome (Nat.find hExists) fun i hi => hMore i (hi.trans_le hLe)
  refine ⟨Nat.find hExists, ?_, hMem', hChain', Nat.find_spec hExists, fun i hi => ?_⟩
  · exact search_returnsTo (fun i hi => by simpa using Nat.find_min hExists hi)
      (Nat.find_spec hExists) (fun _ acc => acc) ()
  · exact ⟨by simpa using Nat.find_min hExists hi, hMore i (hi.trans_le hLe)⟩

/-- A loop over a chain that has gone on so far has met all buckets before. -/
theorem walk_covers (h : Chained pos limit occupied home link disp) (hs : start ∈ occupied)
    (hHome : home start = b) {count : Nat}
    (hMore : ∀ i < count, link (walk pos link b start i) ≠ limit) (hp : p ∈ occupied)
    (hHomeP : home p = b) (hLow : disp start ≤ disp p)
    (hHigh : disp p ≤ disp (walk pos link b start count)) :
    ∃ i ≤ count, walk pos link b start i = p := by
  obtain ⟨i, hAt, hBefore⟩ := h.walk_reaches hs hHome hp hHomeP hLow
  refine ⟨i, ?_, hAt⟩
  by_contra hBeyond
  -- Were the bucket met later, it would lie further along the chain.
  obtain ⟨hMem, hChain, _⟩ := h.walk_mem hs hHome _ hMore
  obtain ⟨j, rfl⟩ := Nat.exists_eq_add_of_lt (Nat.lt_of_not_le hBeyond)
  have hFar := (h.walk_mem hMem hChain (j + 1) fun i' hi' => by
    rw [← walk_add]
    exact hBefore _ (by omega)).2.2
  rw [← walk_add, show count + (j + 1) = count + j + 1 from rfl, hAt] at hFar
  omega

open Search in
/-- A loop over a chain that looks for the bucket before `q` returns it. -/
theorem search_previous (h : Chained pos limit occupied home link disp) (hq : q ∈ occupied)
    (hNe : home q ≠ q) :
    ∃ count, ReturnsTo (fun fuel => search (fun p => decide (pos (home q) (link p) = q))
        (fun _ acc => acc) (walk pos link (home q) (home q)) fuel 0 ()) (count, ()) ∧
      walk pos link (home q) (home q) count ∈ occupied ∧
      home (walk pos link (home q) (home q) count) = home q ∧
      link (walk pos link (home q) (home q) count) = disp q := by
  obtain ⟨hHead, hHome, hZero⟩ := h.headed q hq
  obtain ⟨count, hAt, hMore⟩ := h.walk_reaches hHead hHome hq rfl (hZero ▸ Nat.zero_le _)
  obtain ⟨count, rfl⟩ : ∃ before, count = before + 1 := by
    refine Nat.exists_eq_succ_of_ne_zero ?_
    rintro rfl
    exact hNe hAt
  have hExists : ∃ i, pos (home q) (link (walk pos link (home q) (home q) i)) = q := ⟨count, hAt⟩
  classical
  have hLe : Nat.find hExists ≤ count := Nat.find_min' hExists hAt
  obtain ⟨hMem, hChain, _⟩ := h.walk_mem hHead hHome (Nat.find hExists) fun i hi =>
    hMore i (by omega)
  have hStep := (h.step hMem (hMore _ (Nat.lt_succ_of_le hLe))).2.2
  rw [hChain, Nat.find_spec hExists] at hStep
  exact ⟨_, search_returnsTo (fun i hi => decide_eq_false (Nat.find_min hExists hi))
    (decide_eq_true (Nat.find_spec hExists)) (fun _ acc => acc) (), hMem, hChain, hStep.symm⟩

/-- A loop over a chain that looks for the place of an unoccupied bucket returns
the last bucket before it. -/
theorem search_place (h : Chained pos limit occupied home link disp) (hs : start ∈ occupied)
    (hHome : home start = b) {d : Nat} (hAfter : disp start < d) (hLimit : d < limit)
    (hFree : pos b d ∉ occupied) :
    ∃ count, Search.ReturnsTo (fun fuel => Search.search (fun p => decide (d < link p))
        (fun _ acc => acc) (walk pos link b start) fuel 0 ()) (count, ()) ∧
      walk pos link b start count ∈ occupied ∧ home (walk pos link b start count) = b ∧
      disp (walk pos link b start count) < d ∧ d < link (walk pos link b start count) := by
  obtain ⟨count, hSearch, hMem, hChain, hStop, hBefore⟩ := h.search_returns hs hHome
    (fun p => decide (d < link p)) fun p _ _ hLast => decide_eq_true (hLast ▸ hLimit)
  refine ⟨count, hSearch, hMem, hChain, ?_, of_decide_eq_true hStop⟩
  cases count with
  | zero => exact hAfter
  | succ count =>
      obtain ⟨hPassed, hNe⟩ := hBefore count (Nat.lt_succ_self count)
      obtain ⟨hPrev, hPrevHome, _⟩ := h.walk_mem hs hHome count fun i hi =>
        (hBefore i (Nat.lt_succ_of_lt hi)).2
      have hDisp := (h.step hPrev hNe).2.2
      rw [hPrevHome] at hDisp
      have hLe : disp (walk pos link b start (count + 1)) ≤ d :=
        hDisp.trans_le (Nat.le_of_not_lt (of_decide_eq_false hPassed))
      refine Nat.lt_of_le_of_ne hLe fun hEq => hFree ?_
      have hPlaced := h.placed _ hMem
      rw [hChain, hEq] at hPlaced
      rwa [hPlaced]

/-- Before its last bucket a walk has met every bucket of its chain. -/
theorem not_beyond (h : Chained pos limit occupied home link disp) (hp : p ∈ occupied)
    (hq : q ∈ occupied) (hHome : home q = home p) (hLast : link p = limit) : disp q ≤ disp p := by
  by_contra hBeyond
  have hLink := h.least p hp q hq hHome (Nat.lt_of_not_le hBeyond)
  have hInside := h.inside q hq
  omega

open Search in
/-- A loop over the buckets after `p` that looks for the last one returns it. -/
theorem search_last (h : Chained pos limit occupied home link disp) (hp : p ∈ occupied)
    (hNe : link p ≠ limit) {stop : Nat → Bool} (hStop : ∀ q, stop q = true ↔ link q = limit) :
    ∃ count, ReturnsTo (fun fuel => search stop (fun _ acc => acc)
        (fun j => walk pos link (home p) p (j + 1)) fuel 0 ()) (count, ()) ∧
      walk pos link (home p) p count ∈ occupied ∧
      home (walk pos link (home p) p count) = home p ∧
      walk pos link (home p) p (count + 1) ∈ occupied ∧
      home (walk pos link (home p) p (count + 1)) = home p ∧
      link (walk pos link (home p) p count) = disp (walk pos link (home p) p (count + 1)) ∧
      stop (walk pos link (home p) p (count + 1)) = true := by
  obtain ⟨last, hEnd, hMore⟩ := h.walk_ends hp rfl
  obtain ⟨count, rfl⟩ : ∃ count, last = count + 1 := by
    refine Nat.exists_eq_succ_of_ne_zero ?_
    rintro rfl
    exact hNe hEnd
  obtain ⟨hPrev, hHome, _⟩ := h.walk_mem hp rfl count fun i hi => hMore i (Nat.lt_succ_of_lt hi)
  obtain ⟨hLast, hLastHome, _⟩ := h.walk_mem hp rfl (count + 1) hMore
  have hStep := (h.step hPrev (hMore count (Nat.lt_succ_self count))).2.2
  rw [hHome] at hStep
  have hBefore : ∀ i < count, stop (walk pos link (home p) p (i + 1)) = false := fun i hi =>
    Bool.eq_false_iff.mpr fun hAt => hMore (i + 1) (Nat.succ_lt_succ hi) ((hStop _).mp hAt)
  have hSearch : ReturnsTo (fun fuel => search stop (fun _ acc => acc)
      (fun j => walk pos link (home p) p (j + 1)) fuel 0 ()) (count, ()) :=
    search_returnsTo hBefore ((hStop _).mpr hEnd) (fun _ acc => acc) ()
  exact ⟨count, hSearch, hPrev, hHome, hLast, hLastHome, hStep.symm, (hStop _).mpr hEnd⟩

/-- An unoccupied bucket that is a home begins its own chain. -/
theorem head (h : Chained pos limit occupied home link disp) (hb : b ∉ occupied)
    (hPos : pos b 0 = b) (hLimit : 0 < limit) :
    Chained pos limit (insert b occupied) (Function.update home b b)
      (Function.update link b limit) (Function.update disp b 0) := by
  have hNe {p : Nat} (hp : p ∈ occupied) : p ≠ b := fun hEq => hb (hEq ▸ hp)
  have hOther {p : Nat} (hp : p ∈ occupied) : home p ≠ b := hNe (h.headed p hp).1
  constructor
  · rintro p (rfl | hp)
    · simpa using hPos
    · simpa [hNe hp] using h.placed p hp
  · rintro p (rfl | hp)
    · simpa using hLimit
    · simpa [hNe hp] using h.inside p hp
  · rintro p (rfl | hp)
    · simp
    · obtain ⟨hMem, hHome, hZero⟩ := h.headed p hp
      simp [hNe hp, hOther hp, hMem, hHome, hZero]
  · rintro p (rfl | hp)
    · simpa using hLimit
    · simpa [hNe hp] using h.ahead p hp
  · rintro p (rfl | hp) q (rfl | hq) hHome hDisp
    · simp at hDisp
    · simp [hNe hq, hOther hq] at hHome
    · simp [hNe hp, (hOther hp).symm] at hHome
    · simp only [Function.update_of_ne (hNe hp), Function.update_of_ne (hNe hq)] at hHome hDisp ⊢
      exact h.least p hp q hq hHome hDisp
  · rintro p (rfl | hp)
    · simp
    · simp only [Function.update_of_ne (hNe hp)]
      refine (h.linked p hp).imp_right ?_
      rintro ⟨q, hq, hHome, hDisp⟩
      exact ⟨q, Or.inr hq, by simpa [hNe hq] using hHome, by simpa [hNe hq] using hDisp⟩

/-- An unoccupied bucket joins a chain after the last bucket before it. -/
theorem splice (h : Chained pos limit occupied home link disp) (hp : p ∈ occupied)
    (hq : q ∉ occupied) {d : Nat} (hPos : pos (home p) d = q) (hAfter : disp p < d)
    (hBefore : d < link p) :
    Chained pos limit (insert q occupied) (Function.update home q (home p))
      (Function.update (Function.update link q (link p)) p d) (Function.update disp q d) := by
  have hNe {r : Nat} (hr : r ∈ occupied) : r ≠ q := fun hEq => hq (hEq ▸ hr)
  have hLink := h.link_le hp
  have hSplit {r : Nat} (hr : r ∈ occupied) : Function.update (Function.update link q (link p)) p d
      r = if r = p then d else link r := by
    by_cases hEq : r = p
    · simp [hEq]
    · simp [hEq, hNe hr]
  have hNew : Function.update (Function.update link q (link p)) p d q = link p := by
    simp [(hNe hp).symm]
  constructor
  · rintro r (rfl | hr)
    · simpa using hPos
    · simpa [hNe hr] using h.placed r hr
  · rintro r (rfl | hr)
    · simpa using hBefore.trans_le hLink
    · simpa [hNe hr] using h.inside r hr
  · rintro r (rfl | hr)
    · obtain ⟨hMem, hHome, hZero⟩ := h.headed p hp
      simp [hNe hMem, hMem, hHome, hZero]
    · obtain ⟨hMem, hHome, hZero⟩ := h.headed r hr
      simp [hNe hr, hNe hMem, hMem, hHome, hZero]
  · rintro r (rfl | hr)
    · simpa [hNew] using hBefore
    · rw [hSplit hr, Function.update_of_ne (hNe hr)]
      split_ifs with hEq
      · exact hEq ▸ hAfter
      · exact h.ahead r hr
  · rintro r (rfl | hr) s (rfl | hs) hHome hDisp
    · exact absurd hDisp (lt_irrefl _)
    · simp only [Function.update_self, Function.update_of_ne (hNe hs)] at hHome hDisp ⊢
      rw [hNew]
      exact h.least p hp s hs hHome (hAfter.trans hDisp)
    · simp only [Function.update_self, Function.update_of_ne (hNe hr)] at hHome hDisp ⊢
      rw [hSplit hr]
      split_ifs with hEq
      · exact le_rfl
      · -- The buckets before `d` are not after `p`.
        rcases Nat.lt_trichotomy (disp r) (disp p) with hLt | hSame | hGt
        · exact (h.least r hr p hp hHome hLt).trans hAfter.le
        · exact absurd (h.eq_of_disp hp hr hHome.symm hSame) hEq
        · exact absurd (h.least p hp r hr hHome.symm hGt) (Nat.not_le.mpr (hDisp.trans hBefore))
    · simp only [Function.update_of_ne (hNe hr), Function.update_of_ne (hNe hs)] at hHome hDisp ⊢
      rw [hSplit hr]
      split_ifs with hEq
      · subst hEq
        exact (hBefore.trans_le (h.least r hr s hs hHome hDisp)).le
      · exact h.least r hr s hs hHome hDisp
  · rintro r (rfl | hr)
    · rw [hNew]
      refine (h.linked p hp).imp_right ?_
      rintro ⟨s, hs, hHome, hDisp⟩
      exact ⟨s, Or.inr hs, by simpa [hNe hs] using hHome, by simpa [hNe hs] using hDisp⟩
    · rw [hSplit hr, Function.update_of_ne (hNe hr)]
      split_ifs with hEq
      · exact Or.inr ⟨q, Or.inl rfl, by simp [hEq], by simp⟩
      · refine (h.linked r hr).imp_right ?_
        rintro ⟨s, hs, hHome, hDisp⟩
        exact ⟨s, Or.inr hs, by simpa [hNe hs] using hHome, by simpa [hNe hs] using hDisp⟩

/-- The bucket that `p` links to leaves its chain. -/
theorem unlink (h : Chained pos limit occupied home link disp) (hp : p ∈ occupied)
    (hq : q ∈ occupied) (hHome : home q = home p) (hLink : link p = disp q) :
    Chained pos limit (occupied \ {q}) home (Function.update link p (link q)) disp := by
  have hLt : disp p < disp q := hLink ▸ h.ahead p hp
  have hNe : p ≠ q := fun hEq => (hEq ▸ hLt).ne rfl
  have hFirst {r : Nat} (hr : r ∈ occupied) : home r ≠ q := by
    intro hEq
    have hZero := (h.headed r hr).2.2
    rw [hEq] at hZero
    omega
  have hSplit (r : Nat) : Function.update link p (link q) r = if r = p then link q else link r := by
    by_cases hEq : r = p
    · simp [hEq]
    · simp [hEq]
  constructor
  · exact fun r hr => h.placed r hr.1
  · exact fun r hr => h.inside r hr.1
  · intro r hr
    obtain ⟨hMem, hRest⟩ := h.headed r hr.1
    exact ⟨⟨hMem, hFirst hr.1⟩, hRest⟩
  · intro r hr
    rw [hSplit]
    split_ifs with hEq
    · exact hEq ▸ hLt.trans (h.ahead q hq)
    · exact h.ahead r hr.1
  · intro r hr s hs hSame hDisp
    rw [hSplit]
    split_ifs with hEq
    · subst hEq
      have hLe := h.least r hr.1 s hs.1 hSame hDisp
      rcases Nat.lt_or_eq_of_le (hLink ▸ hLe) with hPast | hAt
      · exact h.least q hq s hs.1 (hSame.trans hHome.symm) hPast
      · exact absurd (h.eq_of_disp hq hs.1 (hSame.trans hHome.symm) hAt.symm) hs.2
    · exact h.least r hr.1 s hs.1 hSame hDisp
  · intro r hr
    rw [hSplit]
    split_ifs with hEq
    · subst hEq
      refine (h.linked q hq).imp_right ?_
      rintro ⟨s, hs, hSame, hDisp⟩
      have hAhead := h.ahead q hq
      refine ⟨s, ⟨hs, fun hSq => ?_⟩, hSame.trans hHome, hDisp⟩
      rw [show s = q from hSq] at hDisp
      omega
    · refine (h.linked r hr.1).imp_right ?_
      rintro ⟨s, hs, hSame, hDisp⟩
      refine ⟨s, ⟨hs, fun hSq => hEq ?_⟩, hSame, hDisp⟩
      -- Only `p` links to `q`.
      obtain rfl : s = q := hSq
      have hChain : home r = home p := hSame.symm.trans hHome
      rcases Nat.lt_trichotomy (disp r) (disp p) with hBelow | hAt | hAbove
      · have hLe := h.least r hr.1 p hp hChain.symm hBelow
        omega
      · exact h.eq_of_disp hp hr.1 hChain hAt
      · have hLe := h.least p hp r hr.1 hChain hAbove
        have hAhead := h.ahead r hr.1
        omega

/-- The only bucket of a chain leaves it. -/
theorem drop (h : Chained pos limit occupied home link disp) (hq : q ∈ occupied)
    (hHome : home q = q) (hLast : link q = limit) :
    Chained pos limit (occupied \ {q}) home link disp := by
  have hFirst {r : Nat} (hr : r ∈ occupied \ {q}) : home r ≠ q := by
    intro hEq
    have hZero := (h.home_eq_iff hq).mp hHome
    have hLe := h.not_beyond hq hr.1 (hEq.trans hHome.symm) hLast
    exact hr.2 (h.eq_of_disp hq hr.1 (hEq.trans hHome.symm) (by omega))
  constructor
  · exact fun r hr => h.placed r hr.1
  · exact fun r hr => h.inside r hr.1
  · intro r hr
    obtain ⟨hMem, hRest⟩ := h.headed r hr.1
    exact ⟨⟨hMem, hFirst hr⟩, hRest⟩
  · exact fun r hr => h.ahead r hr.1
  · exact fun r hr s hs => h.least r hr.1 s hs.1
  · intro r hr
    refine (h.linked r hr.1).imp_right ?_
    rintro ⟨s, hs, hSame, hDisp⟩
    refine ⟨s, ⟨hs, fun hSq => hFirst hr ?_⟩, hSame, hDisp⟩
    rw [← hSame, show s = q from hSq, hHome]

end Chained

end Chains
