import HashBench.Library.Rehash
import HashBench.Library.Iteration

/-! Open-addressing tables that count their filled slots. The count tells
whether an empty slot is left, and with one every search ends. -/
namespace OpenAddressing

open Search Iteration

variable {E : Type*}

/-- The first `n` slots hold these entries, every one of them where its own
lookup finds it, and `filled` of the slots are not empty. -/
structure Counted (seq : E → Nat → Nat) (slots : Nat → Slot E) (n filled : Nat)
    (stored : Multiset E) : Prop where
  probed : Probed seq slots n
  contents_eq : contents slots n = stored
  filled_eq : total Slot.filled slots n = filled

namespace Counted

variable {seq : E → Nat → Nat} {slots : Nat → Slot E} {n filled : Nat} {stored : Multiset E}

theorem mem_stored (h : Counted seq slots n filled stored) {e : E} :
    e ∈ stored ↔ ∃ p < n, slots p = .live e := by
  rw [← h.contents_eq]
  exact mem_contents

theorem card_le (h : Counted seq slots n filled stored) : stored.card ≤ filled := by
  rw [← h.filled_eq, total_filled, h.contents_eq]
  exact Nat.le_add_right ..

/-- A search for an entry that is accepted ends, at one that is stored or, if
none is, at the first empty slot. -/
theorem lookup (h : Counted seq slots n filled stored) (hRoom : filled < n) {probe : Nat → Nat}
    (hBound : ∀ j, probe j < n) (hCovers : ∀ p < n, ∃ j, probe j = p) {hit : E → Bool}
    (hHit : ∀ e ∈ stored, hit e = true → seq e = probe) {stop : Nat → Bool}
    (hStops : ∀ p < n, stop p = (slots p).stops hit) {σ : Type*} (update : Nat → σ → σ) (acc : σ) :
    ∃ j, ReturnsTo (fun fuel => search stop update probe fuel 0 acc)
        (j, trail update probe j acc) ∧
      (∀ i < j, slots (probe i) ≠ .empty) ∧
      ((∃ e ∈ stored, slots (probe j) = .live e ∧ hit e = true) ∨
        (slots (probe j) = .empty ∧ ∀ e ∈ stored, hit e = false)) := by
  obtain ⟨p, hp, hEmpty⟩ := exists_empty (h.filled_eq ▸ hRoom)
  obtain ⟨i, hi⟩ := hCovers p hp
  have hStop : ∃ j, stop (probe j) = true := ⟨i, by rw [hi, hStops p hp, hEmpty]; rfl⟩
  obtain ⟨⟨j, acc'⟩, hFound⟩ := search_returns stop probe hStop update acc
  obtain ⟨fuel, hSearch⟩ := hFound.exists_fuel
  obtain ⟨_, hBefore, hAt, rfl⟩ := search_eq_some hSearch
  simp only [hStops _ (hBound _)] at hBefore hAt
  refine ⟨j, hFound, fun i hi => ne_empty_of_stops_eq_false (hBefore i hi), ?_⟩
  cases hSlot : slots (probe j) with
  | empty =>
      refine Or.inr ⟨rfl, fun e he => Bool.eq_false_iff.mpr fun hAccept => ?_⟩
      obtain ⟨q, hq, hLive⟩ := h.mem_stored.mp he
      have hMiss := h.probed.lookup_sound hBefore hSlot hq hLive (hHit e he hAccept)
      rw [hAccept] at hMiss
      cases hMiss
  | deleted => simp [hSlot] at hAt
  | live e => exact Or.inl ⟨e, h.mem_stored.mpr ⟨_, hBound j, hSlot⟩, rfl, by simpa [hSlot] using hAt⟩

/-- A slot that is not empty is counted. -/
theorem filled_pos (h : Counted seq slots n filled stored) {p : Nat} (hp : p < n)
    (hNe : slots p ≠ .empty) : 0 < filled := by
  have hTotal := total_update Slot.filled slots hp .empty
  have hOne : (slots p).filled ≠ 0 := fun hZero => hNe (Slot.filled_eq_zero_iff.mp hZero)
  rw [h.filled_eq, Slot.filled_empty] at hTotal
  omega

/-- An entry written to a free slot that its probe reaches is stored. -/
theorem store (h : Counted seq slots n filled stored) {e : E} {q : Nat} (hq : q < n)
    (hReach : Reach slots (seq e) q) (hFree : (slots q).entries = 0) {count : Nat}
    (hCount : count + (slots q).filled = filled + 1) :
    Counted seq (Function.update slots q (.live e)) n count (e ::ₘ stored) := by
  refine ⟨h.probed.insert hReach, ?_, ?_⟩
  · rw [contents_update_live hq hFree, h.contents_eq]
  · have hTotal := total_update Slot.filled slots hq (.live e)
    rw [h.filled_eq, Slot.filled_live] at hTotal
    omega

/-- An entry written to the first tombstone of its probe, or else to the empty
slot at the end of it, is stored. -/
theorem claim (h : Counted seq slots n filled stored) {e : E} (hBound : ∀ j, seq e j < n) {j : Nat}
    (hBefore : ∀ i < j, slots (seq e i) ≠ .empty) (hEmpty : slots (seq e j) = .empty)
    {mark : Nat → Bool} (hMark : ∀ p < n, mark p = (slots p).isDeleted) {noted : Option Nat}
    (hNoted : noted = trail (noteFirst mark) (seq e) j none) :
    Counted seq (Function.update slots (noted.getD (seq e j)) (.live e)) n
        ((if noted = none then filled else filled - 1) + 1) (e ::ₘ stored) ∧
      noted.getD (seq e j) < n ∧ (slots (noted.getD (seq e j))).entries = 0 := by
  cases noted with
  | none =>
      have hFree : (slots (seq e j)).entries = 0 := by rw [hEmpty]; rfl
      exact ⟨h.store (hBound j) ⟨j, rfl, hBefore⟩ hFree (by simp [hEmpty]), hBound j, hFree⟩
  | some q =>
      obtain ⟨i, hi, rfl, hMarked, _⟩ := trail_noteFirst_eq_some _ hNoted.symm
      rw [hMark _ (hBound i)] at hMarked
      have hDeleted := Slot.isDeleted_iff.mp hMarked
      have hFree : (slots (seq e i)).entries = 0 := by rw [hDeleted]; rfl
      have hFilled := h.filled_pos (hBound i) (by simp [hDeleted])
      refine ⟨h.store (hBound i) ⟨i, rfl, fun i' hi' => hBefore i' (hi'.trans hi)⟩ hFree ?_,
        hBound i, hFree⟩
      simp only [reduceCtorEq, if_false, hDeleted, Slot.filled_deleted]
      omega

/-- An entry replaced by one with the same probe. -/
theorem assign {e e' : E} (h : Counted seq slots n filled (e ::ₘ stored)) {p : Nat} (hp : p < n)
    (hLive : slots p = .live e) (hSeq : seq e' = seq e) :
    Counted seq (Function.update slots p (.live e')) n filled (e' ::ₘ stored) := by
  refine ⟨h.probed.insert ?_, ?_, ?_⟩
  · rw [hSeq]
    exact h.probed p hp e hLive
  · have hContents := contents_update_swap hp hLive e'
    rw [h.contents_eq, Multiset.cons_swap] at hContents
    exact (Multiset.cons_inj_right e).mp hContents
  · have hTotal := total_update Slot.filled slots hp (.live e')
    rw [h.filled_eq, hLive, Slot.filled_live, Slot.filled_live] at hTotal
    omega

/-- An entry replaced by a tombstone is no longer stored. -/
theorem bury {e : E} (h : Counted seq slots n filled (e ::ₘ stored)) {p : Nat} (hp : p < n)
    (hLive : slots p = .live e) :
    Counted seq (Function.update slots p .deleted) n filled stored := by
  refine ⟨h.probed.delete p, ?_, ?_⟩
  · have hContents := contents_update_cleared hp hLive (s := .deleted) rfl
    rw [h.contents_eq] at hContents
    exact (Multiset.cons_inj_right e).mp hContents
  · have hTotal := total_update Slot.filled slots hp .deleted
    rw [h.filled_eq, hLive, Slot.filled_live, Slot.filled_deleted] at hTotal
    omega

/-- Clean tables count their entries alone. -/
theorem of_clean (h : Clean seq slots n) (hContents : contents slots n = stored) :
    Counted seq slots n stored.card stored :=
  ⟨h.probed, hContents, by rw [h.filled_eq, hContents]⟩

section Rebuild

variable {home : E → Nat} {n' : Nat}

/-- A sweep of all slots of a table followed by the entries set aside rebuilds
it over as many slots or more. -/
theorem rebuild (hContents : contents slots n = stored) (hSeq : ∀ e, seq e 0 = home e)
    (hBound : ∀ e j, seq e j < n') (hCovers : ∀ e, ∀ p < n', ∃ j, seq e j = p) (hLe : n ≤ n')
    (hBeyond : ∀ p, n ≤ p → p < n' → slots p = .empty) (hRoom : stored.card ≤ n') :
    ∃ slots', ReturnsTo (fun fuel =>
        placeAll seq fuel (sweep home slots n).2 (sweep home slots n).1) slots' ∧
      Counted seq slots' n' stored.card stored := by
  have hHome (e : E) : home e < n' := hSeq e ▸ hBound e 0
  have hExtended : contents slots n' = stored := by
    rw [← hContents]
    exact total_extend _ hLe fun p hp hp' => by rw [hBeyond p hp hp']; rfl
  obtain ⟨hKept, hPassed, hAhead⟩ := sweep_spec slots hHome hLe
  rw [hExtended] at hKept
  have hClean : Clean seq (sweep home slots n).1 n' := by
    refine clean_of_settled hSeq fun p hp => ?_
    by_cases hIn : p < n
    · exact hPassed p hIn
    · rcases hAhead p with hSame | hSettled
      · exact Or.inl (hSame.trans (hBeyond p (Nat.le_of_not_lt hIn) hp))
      · exact hSettled
  have hCard : (contents (sweep home slots n).1 n').card + (sweep home slots n).2.length ≤ n' := by
    have hSum := congrArg Multiset.card hKept
    rw [Multiset.card_add, Multiset.coe_card] at hSum
    omega
  obtain ⟨slots', hPlaced⟩ := hClean.placeAll_returns _ (fun e _ => hBound e)
    (fun e _ => hCovers e) hCard
  obtain ⟨fuel, hReturned⟩ := hPlaced.exists_fuel
  obtain ⟨hClean', hContents', _⟩ := hClean.placeAll_returned (fun e _ => hBound e) hReturned
  refine ⟨slots', hPlaced, of_clean hClean' ?_⟩
  rw [hContents', add_comm, hKept]

/-- A sweep of the lower slots, followed by the entries of the upper ones and
those set aside, rebuilds a table over its lower slots. -/
theorem shrink (hContents : contents slots n = stored) (hSeq : ∀ e, seq e 0 = home e)
    (hBound : ∀ e j, seq e j < n') (hCovers : ∀ e, ∀ p < n', ∃ j, seq e j = p) (hLe : n' ≤ n)
    (hRoom : stored.card ≤ n') :
    ∃ slots', ReturnsTo (fun fuel =>
        placeAll seq fuel (liveList (fun i => slots (n' + i)) (n - n') ++ (sweep home slots n').2)
          (sweep home slots n').1) slots' ∧
      Counted seq slots' n' stored.card stored := by
  have hHome (e : E) : home e < n' := hSeq e ▸ hBound e 0
  obtain ⟨hKept, hPassed, _⟩ := sweep_spec slots hHome le_rfl
  have hClean : Clean seq (sweep home slots n').1 n' := clean_of_settled hSeq hPassed
  have hSplit : contents slots n' + contents (fun i => slots (n' + i)) (n - n') = stored := by
    rw [← hContents]
    obtain ⟨d, rfl⟩ := Nat.exists_eq_add_of_le hLe
    rw [Nat.add_sub_cancel_left]
    exact (Finset.sum_range_add ..).symm
  have hPending : ((liveList (fun i => slots (n' + i)) (n - n') ++ (sweep home slots n').2 :
      List E) : Multiset E) + contents (sweep home slots n').1 n' = stored := by
    rw [← Multiset.coe_add, coe_liveList, ← hSplit, ← hKept]
    abel
  have hCard := congrArg Multiset.card hPending
  rw [Multiset.card_add, Multiset.coe_card] at hCard
  obtain ⟨slots', hPlaced⟩ := hClean.placeAll_returns
    (liveList (fun i => slots (n' + i)) (n - n') ++ (sweep home slots n').2)
    (fun e _ => hBound e) (fun e _ => hCovers e) (by omega)
  obtain ⟨fuel, hReturned⟩ := hPlaced.exists_fuel
  obtain ⟨hClean', hContents', _⟩ := hClean.placeAll_returned (fun e _ => hBound e) hReturned
  exact ⟨slots', hPlaced, of_clean hClean' (hContents'.trans hPending)⟩

end Rebuild

/-- Reading the live slots in order reads every entry once. -/
theorem coe_usedFrom {κ : Type*} (key : Nat → κ) (keyOf : E → κ) (slots : Nat → Slot E) (n : Nat)
    (hKey : ∀ p < n, ∀ e, slots p = .live e → key p = keyOf e) :
    (((usedFrom (fun p => (slots p).isLive) n 0).map key : List κ) : Multiset κ) =
      (contents slots n).map keyOf := by
  have hRange (n : Nat) : usedFrom (fun p => (slots p).isLive) n 0 =
      (List.range n).filter fun p => (slots p).isLive := by
    rw [usedFrom, List.range_eq_range', Nat.sub_zero]
  rw [hRange]
  induction n with
  | zero => rfl
  | succ n ih =>
      rw [List.range_succ, List.filter_append, List.map_append, ← Multiset.coe_add,
        ih fun p hp => hKey p (hp.trans (Nat.lt_succ_self n)), contents, contents, total_succ,
        Multiset.map_add]
      congr 1
      cases hSlot : slots n with
      | empty => simp [hSlot]
      | deleted => simp [hSlot]
      | live e => simp [hSlot, hKey n (Nat.lt_succ_self n) e hSlot]

end Counted

end OpenAddressing
