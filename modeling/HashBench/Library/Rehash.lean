import HashBench.Library.OpenAddressing

/-! Rehashing an open-addressing table. Entries are placed one by one at the
first empty slot of their probe sequences. An in-place rehash first sweeps the
old slots, moving each entry home if its home is free and setting it aside
otherwise, and then places the entries set aside. -/
namespace OpenAddressing

open Search

variable {E : Type*}

/-- Write an entry to the first empty slot of its probe sequence. -/
def place (seq : E → Nat → Nat) (fuel : Nat) (e : E) (slots : Nat → Slot E) :
    Option (Nat → Slot E) :=
  (search (fun p => (slots p).isEmpty) (fun _ acc => acc) (seq e) fuel 0 ()).map
    fun found => Function.update slots (seq e found.1) (.live e)

/-- Place the entries of a list in order. -/
def placeAll (seq : E → Nat → Nat) (fuel : Nat) :
    List E → (Nat → Slot E) → Option (Nat → Slot E)
  | [], slots => some slots
  | e :: rest, slots => (place seq fuel e slots).bind (placeAll seq fuel rest)

theorem placeAll_append (seq : E → Nat → Nat) (fuel : Nat) (first second : List E)
    (slots : Nat → Slot E) :
    placeAll seq fuel (first ++ second) slots =
      (placeAll seq fuel first slots).bind (placeAll seq fuel second) := by
  induction first generalizing slots with
  | nil => rfl
  | cons e rest ih =>
      simp only [List.cons_append, placeAll, Option.bind_assoc]
      congr 1
      funext next
      exact ih next

/-- A table without tombstones in which every entry is reachable. -/
structure Clean (seq : E → Nat → Nat) (slots : Nat → Slot E) (n : Nat) : Prop where
  probed : Probed seq slots n
  no_deleted : ∀ p < n, slots p ≠ .deleted

namespace Clean

variable {seq : E → Nat → Nat} {slots slots' : Nat → Slot E} {n : Nat}

theorem grave_eq_zero (h : Clean seq slots n) : total Slot.grave slots n = 0 := by
  refine total_eq_zero _ fun p hp => ?_
  cases hs : slots p with
  | empty => rfl
  | deleted => exact absurd hs (h.no_deleted p hp)
  | live e => rfl

/-- Without tombstones the filled slots are the entries. -/
theorem filled_eq (h : Clean seq slots n) :
    total Slot.filled slots n = (contents slots n).card := by
  rw [total_filled, h.grave_eq_zero, Nat.add_zero]

/-- One returned placement keeps the table clean and adds the entry. -/
theorem place_returned (h : Clean seq slots n) {e : E} (hBound : ∀ j, seq e j < n) {fuel : Nat}
    (hPlace : place seq fuel e slots = some slots') :
    Clean seq slots' n ∧ contents slots' n = e ::ₘ contents slots n ∧
      ∀ p, n ≤ p → slots' p = slots p := by
  simp only [place, Option.map_eq_some_iff] at hPlace
  obtain ⟨⟨m, u⟩, hSearch, rfl⟩ := hPlace
  obtain ⟨_, hBefore, hStop, _⟩ := search_eq_some hSearch
  have hEmpty : slots (seq e m) = .empty := Slot.isEmpty_iff.mp hStop
  have hReach : Reach slots (seq e) (seq e m) := ⟨m, rfl, fun i hi hi' => by
    have := hBefore i hi
    simp [hi'] at this⟩
  refine ⟨⟨h.probed.insert hReach, fun p hp => ?_⟩, ?_, fun p hp => ?_⟩
  · by_cases hq : p = seq e m
    · simp [hq]
    · rw [Function.update_of_ne hq]
      exact h.no_deleted p hp
  · exact contents_update_live (hBound m) (by simp [hEmpty]) e
  · exact Function.update_of_ne (Nat.ne_of_gt (Nat.lt_of_lt_of_le (hBound m) hp)) ..

/-- A table with an empty slot accepts one more entry. -/
theorem place_returns {e : E} (hCovers : ∀ p < n, ∃ j, seq e j = p)
    (hRoom : total Slot.filled slots n < n) :
    ∃ slots', ReturnsTo (fun fuel => place seq fuel e slots) slots' := by
  obtain ⟨p, hp, hEmpty⟩ := exists_empty hRoom
  obtain ⟨j, hj⟩ := hCovers p hp
  obtain ⟨found, hFound⟩ := search_returns (fun p => (slots p).isEmpty) (seq e)
    ⟨j, by simp [hj, hEmpty]⟩ (fun _ acc => acc) ()
  exact ⟨_, hFound.map _⟩

/-- A returned placement of a list adds exactly its entries. -/
theorem placeAll_returned {pending : List E} (h : Clean seq slots n)
    (hBound : ∀ e ∈ pending, ∀ j, seq e j < n) {fuel : Nat}
    (hPlace : placeAll seq fuel pending slots = some slots') :
    Clean seq slots' n ∧ contents slots' n = pending + contents slots n ∧
      ∀ p, n ≤ p → slots' p = slots p := by
  induction pending generalizing slots with
  | nil =>
      obtain rfl : slots = slots' := by simpa [placeAll] using hPlace
      exact ⟨h, by simp, fun _ _ => rfl⟩
  | cons e rest ih =>
      simp only [placeAll, Option.bind_eq_some_iff] at hPlace
      obtain ⟨next, hFirst, hRest⟩ := hPlace
      obtain ⟨hNext, hAdded, hKept⟩ := h.place_returned (hBound e (by simp)) hFirst
      obtain ⟨hClean, hContents, hOutside⟩ :=
        ih hNext (fun e' he' => hBound e' (List.mem_cons_of_mem e he')) hRest
      refine ⟨hClean, ?_, fun p hp => (hOutside p hp).trans (hKept p hp)⟩
      rw [hContents, hAdded, ← Multiset.cons_coe, Multiset.cons_add, Multiset.add_cons]

/-- A table with room for all pending entries accepts them all. -/
theorem placeAll_returns (h : Clean seq slots n) (pending : List E)
    (hBound : ∀ e ∈ pending, ∀ j, seq e j < n)
    (hCovers : ∀ e ∈ pending, ∀ p < n, ∃ j, seq e j = p)
    (hRoom : (contents slots n).card + pending.length ≤ n) :
    ∃ slots', ReturnsTo (fun fuel => placeAll seq fuel pending slots) slots' := by
  induction pending generalizing slots with
  | nil => exact ⟨slots, ReturnsTo.pure slots⟩
  | cons e rest ih =>
      have hFilled : total Slot.filled slots n < n := by
        rw [h.filled_eq]
        simp only [List.length_cons] at hRoom
        omega
      obtain ⟨next, hFirst⟩ := place_returns (hCovers e (by simp)) hFilled
      obtain ⟨fuel, hReturned⟩ := hFirst.exists_fuel
      obtain ⟨hNext, hAdded, _⟩ := h.place_returned (hBound e (by simp)) hReturned
      obtain ⟨slots', hRest⟩ := ih hNext
        (fun e' he' => hBound e' (List.mem_cons_of_mem e he'))
        (fun e' he' => hCovers e' (List.mem_cons_of_mem e he'))
        (by rw [hAdded, Multiset.card_cons]; simp only [List.length_cons] at hRoom; omega)
      exact ⟨slots', hFirst.bind hRest⟩

end Clean

section Sweep

variable (home : E → Nat)

/-- Take the entry out of slot `i` and move it home, or set it aside when its
home is taken. A tombstone in slot `i` disappears. -/
def sweepStep (i : Nat) (state : (Nat → Slot E) × List E) : (Nat → Slot E) × List E :=
  let cleared := Function.update state.1 i .empty
  match state.1 i with
  | .live e =>
      match cleared (home e) with
      | .live _ => (cleared, e :: state.2)
      | _ => (Function.update cleared (home e) (.live e), state.2)
  | _ => (cleared, state.2)

/-- The slots and the entries set aside after the first `count` steps. -/
def sweep (slots : Nat → Slot E) : Nat → (Nat → Slot E) × List E
  | 0 => (slots, [])
  | count + 1 => sweepStep home count (sweep slots count)

/-- Nothing is left in this slot but an entry that is at home there. -/
def Settled (s : Slot E) (p : Nat) : Prop :=
  s = .empty ∨ ∃ e, s = .live e ∧ home e = p

section Step

variable {i : Nat} {slots : Nat → Slot E} (aside : List E)

theorem sweepStep_free (hFree : (slots i).entries = 0) :
    sweepStep home i (slots, aside) = (Function.update slots i .empty, aside) := by
  cases hs : slots i with
  | empty => simp only [sweepStep, hs]
  | deleted => simp only [sweepStep, hs]
  | live e =>
      rw [hs] at hFree
      exact absurd hFree (Multiset.singleton_ne_zero e)

/-- The home of the entry is taken, also by one that is not at home there. -/
theorem sweepStep_taken {e e' : E} (hLive : slots i = .live e)
    (hTaken : Function.update slots i .empty (home e) = .live e') :
    sweepStep home i (slots, aside) = (Function.update slots i .empty, e :: aside) := by
  simp only [sweepStep, hLive, hTaken]

theorem sweepStep_home {e : E} (hLive : slots i = .live e)
    (hFree : (Function.update slots i .empty (home e)).entries = 0) :
    sweepStep home i (slots, aside) =
      (Function.update (Function.update slots i .empty) (home e) (.live e), aside) := by
  cases hHome : Function.update slots i Slot.empty (home e) with
  | empty => simp only [sweepStep, hLive, hHome]
  | deleted => simp only [sweepStep, hLive, hHome]
  | live e' =>
      rw [hHome] at hFree
      exact absurd hFree (Multiset.singleton_ne_zero e')

end Step

/-- One step of the sweep, by the slot it clears and where the entry goes. -/
theorem sweepStep_cases (i : Nat) (slots : Nat → Slot E) (aside : List E) :
    ((slots i).entries = 0 ∧
      sweepStep home i (slots, aside) = (Function.update slots i .empty, aside)) ∨
    (∃ e, slots i = .live e ∧ (∃ e', Function.update slots i .empty (home e) = .live e') ∧
      sweepStep home i (slots, aside) = (Function.update slots i .empty, e :: aside)) ∨
    (∃ e, slots i = .live e ∧ (Function.update slots i .empty (home e)).entries = 0 ∧
      sweepStep home i (slots, aside) =
        (Function.update (Function.update slots i .empty) (home e) (.live e), aside)) := by
  rcases (slots i).free_or_live with hFree | ⟨e, hLive⟩
  · exact Or.inl ⟨hFree, sweepStep_free home aside hFree⟩
  · right
    rcases (Function.update slots i Slot.empty (home e)).free_or_live with hFree | ⟨e', hTaken⟩
    · exact Or.inr ⟨e, hLive, hFree, sweepStep_home home aside hLive hFree⟩
    · exact Or.inl ⟨e, hLive, ⟨e', hTaken⟩, sweepStep_taken home aside hLive hTaken⟩

/-- A slot that one step changes is settled afterwards, and the cleared slot is. -/
theorem sweepStep_settled (i : Nat) (state : (Nat → Slot E) × List E) (p : Nat) :
    ((sweepStep home i state).1 p = state.1 p ∧ p ≠ i) ∨
      Settled home ((sweepStep home i state).1 p) p := by
  obtain ⟨slots, aside⟩ := state
  have hCleared : (Function.update slots i .empty p = slots p ∧ p ≠ i) ∨
      Settled home (Function.update slots i .empty p) p := by
    by_cases hp : p = i
    · subst hp
      exact Or.inr (Or.inl (Function.update_self ..))
    · exact Or.inl ⟨Function.update_of_ne hp .., hp⟩
  rcases sweepStep_cases home i slots aside with
    ⟨_, hEq⟩ | ⟨e, _, _, hEq⟩ | ⟨e, _, _, hEq⟩
  · rw [hEq]
    exact hCleared
  · rw [hEq]
    exact hCleared
  · rw [hEq]
    by_cases hp : p = home e
    · subst hp
      exact Or.inr (Or.inr ⟨e, Function.update_self .., rfl⟩)
    · simpa only [Function.update_of_ne hp] using hCleared

variable {home}

/-- One step neither loses nor duplicates an entry. -/
theorem sweepStep_contents {n i : Nat} (hi : i < n) (hHome : ∀ e, home e < n)
    (state : (Nat → Slot E) × List E) :
    contents (sweepStep home i state).1 n + (sweepStep home i state).2 =
      contents state.1 n + state.2 := by
  obtain ⟨slots, aside⟩ := state
  rcases sweepStep_cases home i slots aside with
    ⟨hFree, hEq⟩ | ⟨e, hLive, _, hEq⟩ | ⟨e, hLive, hFree, hEq⟩
  · rw [hEq, contents_update_free hi hFree Slot.entries_empty]
  · rw [hEq, ← contents_update_cleared hi hLive Slot.entries_empty, ← Multiset.cons_coe,
      Multiset.add_cons, Multiset.cons_add]
  · rw [hEq, contents_update_live (hHome e) hFree,
      contents_update_cleared hi hLive Slot.entries_empty]

/-- The sweep keeps the entries, settles the slots it has passed, and touches
the others only to bring an entry home. -/
theorem sweep_spec (slots : Nat → Slot E) {n : Nat} (hHome : ∀ e, home e < n) {count : Nat}
    (hCount : count ≤ n) :
    contents (sweep home slots count).1 n + (sweep home slots count).2 = contents slots n ∧
      (∀ p < count, Settled home ((sweep home slots count).1 p) p) ∧
      ∀ p, (sweep home slots count).1 p = slots p ∨
        Settled home ((sweep home slots count).1 p) p := by
  induction count with
  | zero => exact ⟨by simp [sweep], by simp, fun p => Or.inl rfl⟩
  | succ count ih =>
      obtain ⟨hContents, hPassed, hAhead⟩ := ih (by omega)
      refine ⟨?_, fun p hp => ?_, fun p => ?_⟩
      · exact (sweepStep_contents (by omega) hHome _).trans hContents
      · rcases sweepStep_settled home count (sweep home slots count) p with
          ⟨hSame, hNe⟩ | hSettled
        · rw [sweep, hSame]
          exact hPassed p (by omega)
        · exact hSettled
      · rcases sweepStep_settled home count (sweep home slots count) p with
          ⟨hSame, _⟩ | hSettled
        · rw [sweep, hSame]
          exact hAhead p
        · exact Or.inr hSettled

/-- What the sweep sets aside was stored. -/
theorem mem_contents_of_aside (slots : Nat → Slot E) {n count : Nat} (hHome : ∀ e, home e < n)
    (hCount : count ≤ n) {e : E} (he : e ∈ (sweep home slots count).2) : e ∈ contents slots n := by
  rw [← (sweep_spec slots hHome hCount).1]
  exact Multiset.mem_add.mpr (Or.inr he)

/-- One step touches no slot past every home. -/
theorem sweepStep_outside {n i p : Nat} (hi : i < n) (hHome : ∀ e, home e < n) (hp : n ≤ p)
    (state : (Nat → Slot E) × List E) : (sweepStep home i state).1 p = state.1 p := by
  obtain ⟨slots, aside⟩ := state
  have hNe : p ≠ i := by omega
  rcases sweepStep_cases home i slots aside with
    ⟨_, hEq⟩ | ⟨e, _, _, hEq⟩ | ⟨e, _, _, hEq⟩
  · simp only [hEq, Function.update_of_ne hNe]
  · simp only [hEq, Function.update_of_ne hNe]
  · have hNeHome : p ≠ home e := by have := hHome e; omega
    simp only [hEq, Function.update_of_ne hNeHome, Function.update_of_ne hNe]

theorem sweep_outside (slots : Nat → Slot E) {n : Nat} (hHome : ∀ e, home e < n) {count : Nat}
    (hCount : count ≤ n) {p : Nat} (hp : n ≤ p) : (sweep home slots count).1 p = slots p := by
  induction count with
  | zero => rfl
  | succ count ih => exact (sweepStep_outside hCount hHome hp _).trans (ih (by omega))

/-- Settled slots make a clean table for any probe sequence that starts at home. -/
theorem clean_of_settled {seq : E → Nat → Nat} {slots : Nat → Slot E} {n : Nat}
    (hSeq : ∀ e, seq e 0 = home e) (h : ∀ p < n, Settled home (slots p) p) :
    Clean seq slots n := by
  refine ⟨fun p hp e hLive => ⟨0, ?_, by simp⟩, fun p hp hDeleted => ?_⟩
  · rcases h p hp with hEmpty | ⟨e', hLive', hAt⟩
    · rw [hLive] at hEmpty
      cases hEmpty
    · rw [hLive, Slot.live.injEq] at hLive'
      rw [hSeq, hLive', hAt]
  · rcases h p hp with hEmpty | ⟨e', hLive', _⟩
    · rw [hDeleted] at hEmpty
      cases hEmpty
    · rw [hDeleted] at hLive'
      cases hLive'

end Sweep

end OpenAddressing
