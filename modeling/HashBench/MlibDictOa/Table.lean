import HashBench.MlibDictOa.Dict
import HashBench.Library.Counted

/-! The slots of a dictionary as an open-addressing table. The reserved keys are
read as marks, and the loops of the resizes as the library's sweeps and
placements. -/
namespace HashBench.MlibDictOa

open Search Triangular OpenAddressing

variable {K V : Type}

/-- The reserved keys are two keys, recognised by identity. -/
structure Oor.Lawful (oor : Oor K) : Prop where
  oorEqual_iff : ∀ n < 2, ∀ key, oor.oorEqual key n = true ↔ key = oor.oorSet n
  distinct : oor.oorSet oaEmpty ≠ oor.oorSet oaDeleted

/-- What the key in a slot says of it. -/
def slotOf (oor : Oor K) (s : Pair K V) : Slot (Pair K V) :=
  if oor.oorEqual s.key oaEmpty then .empty
  else if oor.oorEqual s.key oaDeleted then .deleted
  else .live s

/-- The slots of a dictionary. -/
def slots (oor : Oor K) (data : Nat → Pair K V) (p : Nat) : Slot (Pair K V) := slotOf oor (data p)

/-- The slots that the probe for a pair inspects. -/
def slotSeq (bp : Blueprint K V) (mask : Nat) (s : Pair K V) : Nat → Nat :=
  probe mask (bp.hashKey s.key)

section Slots

variable {oor : Oor K} {s : Pair K V}

theorem Oor.Lawful.oorEqual_set (h : oor.Lawful) {n m : Nat} (hn : n < 2) (hm : m < 2) :
    oor.oorEqual (oor.oorSet n) m = decide (n = m) := by
  rw [Bool.eq_iff_iff, h.oorEqual_iff m hm, decide_eq_true_iff]
  refine ⟨fun hEq => ?_, fun hEq => hEq ▸ rfl⟩
  by_contra hNe
  have hCases : n = 0 ∧ m = 1 ∨ n = 1 ∧ m = 0 := by omega
  rcases hCases with ⟨rfl, rfl⟩ | ⟨rfl, rfl⟩
  · exact h.distinct hEq
  · exact h.distinct hEq.symm

theorem slotOf_mark_empty (h : oor.Lawful) (s : Pair K V) :
    slotOf oor (mark oor oaEmpty s) = .empty := by
  have hEmpty : oor.oorEqual (oor.oorSet oaEmpty) oaEmpty = true :=
    h.oorEqual_set (by decide) (by decide)
  simp [slotOf, mark, hEmpty]

theorem slotOf_mark_deleted (h : oor.Lawful) (s : Pair K V) :
    slotOf oor (mark oor oaDeleted s) = .deleted := by
  have hEmpty : oor.oorEqual (oor.oorSet oaDeleted) oaEmpty = false :=
    h.oorEqual_set (by decide) (by decide)
  have hDeleted : oor.oorEqual (oor.oorSet oaDeleted) oaDeleted = true :=
    h.oorEqual_set (by decide) (by decide)
  simp [slotOf, mark, hEmpty, hDeleted]

theorem slotOf_isEmpty : (slotOf oor s).isEmpty = oor.oorEqual s.key oaEmpty := by
  unfold slotOf
  split_ifs with hEmpty hDeleted <;> simp [*]

theorem slotOf_isDeleted (h : oor.Lawful) :
    (slotOf oor s).isDeleted = oor.oorEqual s.key oaDeleted := by
  unfold slotOf
  split_ifs with hEmpty hDeleted
  · rw [(h.oorEqual_iff oaEmpty (by decide) _).mp hEmpty,
      h.oorEqual_set (by decide) (by decide)]
    rfl
  · exact hDeleted.symm
  · exact (Bool.eq_false_iff.mpr hDeleted).symm

theorem slotOf_isLive : (slotOf oor s).isLive =
    (!oor.oorEqual s.key oaEmpty && !oor.oorEqual s.key oaDeleted) := by
  unfold slotOf
  split_ifs with hEmpty hDeleted <;> simp [*]

theorem slotOf_eq_live_iff {e : Pair K V} : slotOf oor s = .live e ↔
    s = e ∧ oor.oorEqual s.key oaEmpty = false ∧ oor.oorEqual s.key oaDeleted = false := by
  unfold slotOf
  split_ifs with hEmpty hDeleted <;> simp [*]

theorem oorEqual_of_empty {data : Nat → Pair K V} {p : Nat} (h : slots oor data p = .empty) :
    oor.oorEqual (data p).key oaEmpty = true := by
  rw [← slotOf_isEmpty, show slotOf oor (data p) = .empty from h]
  rfl

theorem oorEqual_of_deleted (hLawful : oor.Lawful) {data : Nat → Pair K V} {p : Nat}
    (h : slots oor data p = .deleted) : oor.oorEqual (data p).key oaDeleted = true ∧
      oor.oorEqual (data p).key oaEmpty = false := by
  rw [← slotOf_isEmpty, ← slotOf_isDeleted hLawful, show slotOf oor (data p) = .deleted from h]
  exact ⟨rfl, rfl⟩

theorem slots_update (oor : Oor K) (data : Nat → Pair K V) (p : Nat) (s : Pair K V) :
    slots oor (Function.update data p s) = Function.update (slots oor data) p (slotOf oor s) := by
  funext q
  by_cases hq : q = p
  · subst hq
    simp [slots]
  · simp [slots, hq]

theorem isUsed_eq (oor : Oor K) (data : Nat → Pair K V) :
    isUsed oor data = fun p => (slots oor data p).isLive := funext fun _ => slotOf_isLive.symm

end Slots

section Sweep

variable {oor : Oor K} {bp : Blueprint K V} {mask i : Nat} {data : Nat → Pair K V}
  {tmp : List (Pair K V)}

/-- A pair is moved as the sweep of the library moves it. A pair that is at home
already is left there, which is the same. -/
theorem moveHome_eq (h : oor.Lawful) (hLive : slots oor data i = .live (data i)) :
    (slots oor (moveHome oor bp mask i (data, tmp)).1, (moveHome oor bp mask i (data, tmp)).2) =
      sweepStep (fun s => slotSeq bp mask s 0) i (slots oor data, tmp) := by
  have hSlots (p : Nat) (hp : p ≠ i) :
      Function.update (slots oor data) i Slot.empty p = slots oor data p :=
    Function.update_of_ne hp ..
  simp only [moveHome, sweepStep, hLive]
  by_cases hAway : bp.hashKey (data i).key &&& mask ≠ i
  · simp only [if_pos hAway]
    have hHome := hSlots _ hAway
    cases hSlot : slots oor data (bp.hashKey (data i).key &&& mask) with
    | live e =>
        obtain ⟨_, hEmpty, hDeleted⟩ := slotOf_eq_live_iff.mp hSlot
        rw [hSlot] at hHome
        simp only [hEmpty, hDeleted, Bool.or_self, Bool.false_eq_true, if_false, slots_update,
          slotOf_mark_empty h, slotSeq, probe, hHome]
    | empty =>
        rw [hSlot] at hHome
        simp only [oorEqual_of_empty hSlot, Bool.true_or, if_true, slots_update,
          slotOf_mark_empty h, slotSeq, probe, hHome]
        rw [Function.update_comm hAway.symm, ← hLive]
        rfl
    | deleted =>
        rw [hSlot] at hHome
        simp only [(oorEqual_of_deleted h hSlot).1, Bool.or_true, if_true, slots_update,
          slotOf_mark_empty h, slotSeq, probe, hHome]
        rw [Function.update_comm hAway.symm, ← hLive]
        rfl
  · have hHome : slotSeq bp mask (data i) 0 = i := not_not.mp hAway
    simp only [if_neg hAway, hHome, Function.update_self, Function.update_idem, ← hLive,
      Function.update_eq_self]

theorem sweepUpAt_eq (h : oor.Lawful) (bp : Blueprint K V) (mask i : Nat) (data : Nat → Pair K V)
    (tmp : List (Pair K V)) :
    (slots oor (sweepUpAt oor bp mask i (data, tmp)).1, (sweepUpAt oor bp mask i (data, tmp)).2) =
      sweepStep (fun s => slotSeq bp mask s 0) i (slots oor data, tmp) := by
  cases hSlot : slots oor data i with
  | live e =>
      obtain ⟨rfl, hEmpty, hDeleted⟩ := slotOf_eq_live_iff.mp hSlot
      simp only [sweepUpAt, hEmpty, hDeleted, Bool.not_false, Bool.and_self, if_true]
      exact moveHome_eq h hSlot
  | empty =>
      simp [sweepUpAt, oorEqual_of_empty hSlot, slots_update, slotOf_mark_empty h, sweepStep, hSlot]
  | deleted =>
      simp [sweepUpAt, (oorEqual_of_deleted h hSlot).1, slots_update, slotOf_mark_empty h, sweepStep, hSlot]

theorem sweepDownAt_eq (h : oor.Lawful) (bp : Blueprint K V) (mask i : Nat) (data : Nat → Pair K V)
    (tmp : List (Pair K V)) :
    (slots oor (sweepDownAt oor bp mask i (data, tmp)).1,
        (sweepDownAt oor bp mask i (data, tmp)).2) =
      sweepStep (fun s => slotSeq bp mask s 0) i (slots oor data, tmp) := by
  cases hSlot : slots oor data i with
  | live e =>
      obtain ⟨rfl, hEmpty, hDeleted⟩ := slotOf_eq_live_iff.mp hSlot
      simp only [sweepDownAt, hEmpty, hDeleted, Bool.false_eq_true, if_false]
      exact moveHome_eq h hSlot
  | empty =>
      simp only [sweepDownAt, oorEqual_of_empty hSlot, if_true, sweepStep, hSlot]
      rw [← hSlot, Function.update_eq_self]
  | deleted =>
      obtain ⟨hDeleted, hEmpty⟩ := oorEqual_of_deleted h hSlot
      simp [sweepDownAt, hEmpty, hDeleted, slots_update, slotOf_mark_empty h, sweepStep, hSlot]

/-- A sweep whose body is a step of the library's is the library's sweep. -/
theorem sweepSlots_eq {body : Nat → (Nat → Pair K V) × List (Pair K V) →
      (Nat → Pair K V) × List (Pair K V)} {home : Pair K V → Nat}
    (hBody : ∀ i data tmp, (slots oor (body i (data, tmp)).1, (body i (data, tmp)).2) =
      sweepStep home i (slots oor data, tmp)) (data : Nat → Pair K V) (count : Nat) :
    (slots oor (sweepSlots body data count).1, (sweepSlots body data count).2) =
      sweep home (slots oor data) count := by
  induction count with
  | zero => rfl
  | succ count ih =>
      rw [sweep, ← ih]
      exact hBody count _ _

end Sweep

/-- A key that the reserved keys do not compare equal to. -/
def Regular (oor : Oor K) (bp : Blueprint K V) (key : K) : Prop :=
  ∀ n < 2, bp.cmprKeys (oor.oorSet n) key = false

theorem Regular.oorEqual {oor : Oor K} {bp : Blueprint K V} {key : K} (h : Regular oor bp key)
    (hLawful : oor.Lawful) {n : Nat} (hn : n < 2) : oor.oorEqual key n = false := by
  refine Bool.eq_false_iff.mpr fun hEq => ?_
  have hSelf := h n hn
  rw [← (hLawful.oorEqual_iff n hn key).mp hEq, bp.cmprKeys_refl] at hSelf
  cases hSelf

/-- A regular key differs from that of an empty slot. -/
theorem Regular.differs {oor : Oor K} {bp : Blueprint K V} {key : K} (h : Regular oor bp key)
    (hLawful : oor.Lawful) {data : Nat → Pair K V} {p : Nat} (hEmpty : slots oor data p = .empty) :
    bp.cmprKeys (data p).key key = false := by
  rw [(hLawful.oorEqual_iff oaEmpty (by decide) _).mp (oorEqual_of_empty hEmpty)]
  exact h oaEmpty (by decide)

theorem slotOf_regular {oor : Oor K} {bp : Blueprint K V} (hLawful : oor.Lawful) {s : Pair K V}
    (h : Regular oor bp s.key) : slotOf oor s = .live s :=
  slotOf_eq_live_iff.mpr ⟨rfl, h.oorEqual hLawful (by decide), h.oorEqual hLawful (by decide)⟩

section Place

variable {oor : Oor K} {bp : Blueprint K V} {mask : Nat}

/-- The loop that puts a pair back is a placement. -/
theorem putBack_eq (h : oor.Lawful) {pair : Pair K V} (hKey : Regular oor bp pair.key) (fuel : Nat)
    (data : Nat → Pair K V) :
    (putBack oor bp mask fuel pair data).map (slots oor) =
      place (slotSeq bp mask) fuel pair (slots oor data) := by
  have hStop : (fun p => oor.oorEqual (data p).key oaEmpty) =
      fun p => (slots oor data p).isEmpty := funext fun _ => slotOf_isEmpty.symm
  rw [putBack, place, Option.map_map, hStop]
  refine Option.map_congr fun found _ => ?_
  simp only [Function.comp_def, slots_update, slotOf_regular h hKey]
  rfl

theorem putBack_eq_some {pair : Pair K V} {fuel : Nat} {data data' : Nat → Pair K V}
    (hPut : putBack oor bp mask fuel pair data = some data') :
    ∃ j, data' = Function.update data (slotSeq bp mask pair j) pair := by
  simp only [putBack, Option.map_eq_some_iff] at hPut
  obtain ⟨⟨j, acc⟩, _, rfl⟩ := hPut
  exact ⟨j, rfl⟩

theorem putBackAll_eq (h : oor.Lawful) {tmp : List (Pair K V)}
    (hKeys : ∀ s ∈ tmp, Regular oor bp s.key) (fuel : Nat) (data : Nat → Pair K V) :
    (putBackAll oor bp mask fuel tmp data).map (slots oor) =
      placeAll (slotSeq bp mask) fuel tmp (slots oor data) := by
  induction tmp generalizing data with
  | nil => rfl
  | cons s tmp ih =>
      rw [putBackAll, placeAll, ← putBack_eq h (hKeys s List.mem_cons_self), Option.map_bind,
        Option.bind_map]
      refine Option.bind_congr fun next _ => ?_
      exact ih (fun s' hs' => hKeys s' (List.mem_cons_of_mem s hs')) next

/-- The pass over the upper slots places the pairs it meets there. -/
theorem moveUpper_eq (h : oor.Lawful) {start count : Nat} {data : Nat → Pair K V}
    (hKeys : ∀ i < count, ∀ s, slots oor data (start + i) = .live s → Regular oor bp s.key)
    (hBelow : ∀ s : Pair K V, ∀ j, slotSeq bp mask s j < start) (fuel : Nat) :
    (moveUpper oor bp mask fuel (List.range' start count) data).map (slots oor) =
      placeAll (slotSeq bp mask) fuel (liveList (fun i => slots oor data (start + i)) count)
        (slots oor data) := by
  induction count generalizing data start with
  | zero => rfl
  | succ count ih =>
      have hShift : (fun i => slots oor data (start + (i + 1))) =
          fun i => slots oor data (start + 1 + i) := by
        funext i
        rw [Nat.add_right_comm, Nat.add_assoc]
      have hBelow' (s : Pair K V) (j : Nat) : slotSeq bp mask s j < start + 1 :=
        (hBelow s j).trans (Nat.lt_succ_self start)
      have hKeys' : ∀ i < count, ∀ s, slots oor data (start + 1 + i) = .live s →
          Regular oor bp s.key := fun i hi s hLive => hKeys (i + 1) (by omega) s (by
        rw [← hLive]
        exact congrFun hShift i)
      rw [liveList_succ_left, hShift, List.range'_succ, moveUpper, isUsed_eq]
      cases hSlot : slots oor data start with
      | live s =>
          obtain ⟨rfl, _⟩ := slotOf_eq_live_iff.mp hSlot
          have hKey : Regular oor bp (data start).key := hKeys 0 (Nat.succ_pos _) _ hSlot
          simp only [hSlot, Slot.isLive_live, if_true]
          rw [placeAll, ← putBack_eq h hKey, Option.map_bind, Option.bind_map]
          refine Option.bind_congr fun next hPut => ?_
          obtain ⟨j, rfl⟩ := putBack_eq_some hPut
          have hUpper (i : Nat) : slots oor (Function.update data
              (slotSeq bp mask (data start) j) (data start)) (start + 1 + i) =
                slots oor data (start + 1 + i) := by
            have hNe := hBelow (data start) j
            exact congrArg (slotOf oor) (Function.update_of_ne (by omega) ..)
          simp only [Function.comp_apply, ← hUpper]
          exact ih (fun i hi s hLive => hKeys' i hi s ((hUpper i).symm.trans hLive)) hBelow'
      | empty =>
          simp only [hSlot, Slot.isLive_empty, Bool.false_eq_true, if_false]
          exact ih hKeys' hBelow'
      | deleted =>
          simp only [hSlot, Slot.isLive_deleted, Bool.false_eq_true, if_false]
          exact ih hKeys' hBelow'

theorem steady_putBack (mask : Nat) (pair : Pair K V) (data : Nat → Pair K V) :
    Steady fun fuel => putBack oor bp mask fuel pair data := (steady_search _ _ _ _).map _

theorem steady_putBackAll (mask : Nat) (tmp : List (Pair K V)) (data : Nat → Pair K V) :
    Steady fun fuel => putBackAll oor bp mask fuel tmp data := by
  induction tmp generalizing data with
  | nil => exact Steady.pure _
  | cons s tmp ih => exact (steady_putBack mask s data).bind ih

theorem steady_moveUpper (mask : Nat) (upper : List Nat) (data : Nat → Pair K V) :
    Steady fun fuel => moveUpper oor bp mask fuel upper data := by
  induction upper generalizing data with
  | nil => exact Steady.pure _
  | cons i upper ih =>
      simp only [moveUpper]
      by_cases hUsed : isUsed oor data i
      · simp only [if_pos hUsed]
        exact (steady_putBack mask (data i) data).bind ih
      · simp only [if_neg hUsed]
        exact ih data

end Place

end HashBench.MlibDictOa
