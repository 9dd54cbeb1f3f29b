import HashBench.Library.Bytes
import HashBench.Library.Positional

/-! The unique keys of the C-string blueprint. Each is a copy of a counter of
letters, which counts in base 26 from its first letter on. All copies are in one
block, and a key is the offset of its copy there. -/
namespace HashBench.Blueprints.CstringUint64Fnv1a

open Memory Search Positional

/-- An access outside of an array, or an increment out of the range of `char`. -/
inductive Fault where
  | outside
  | charRange
  deriving DecidableEq, Repr

def stringLength : Nat := 16

/-- The keys that are filled in, the block of their strings, and the counter. -/
structure Filling where
  keys : Buffer Nat
  backingData : Buffer Int
  current : Buffer Int

/-- `++c`. -/
def increment (c : Int) : Except Fault Int :=
  if c + 1 ≤ 127 then .ok (c + 1) else .error .charRange

/-- The loop over the letters of the counter from `j` on. -/
def advance : (left j : Nat) → Buffer Int → Except Fault (Buffer Int)
  | 0, _, current => pure current
  | left + 1, j, current => do
      let c ← increment (← current.read .outside j)
      let current ← current.write .outside j c
      if c ≤ 122 then pure current
      else do
        let current ← current.write .outside j 97
        advance left (j + 1) current

/-- `resize`. New characters are zero. -/
def resized (size : Nat) (b : Buffer Int) : Buffer Int :=
  ⟨size, fun p => if p < b.size then b.cell p else 0⟩

def fillKey (s : Filling) (i : Nat) : Except Fault Filling := do
  let keys ← s.keys.write .outside i (i * stringLength)
  let backingData ←
    s.backingData.memcpy .outside (← keys.read .outside i) s.current stringLength
  let current ← advance (stringLength - 1) 0 s.current
  pure ⟨keys, backingData, current⟩

/-- The block is static, so that an earlier call may have left its strings there.
The counter is on the stack. -/
def fillUniqueKeys (keys : Buffer Nat) (backingData : Buffer Int) (stack : Nat → Int) :
    Except Fault Filling := do
  let backingData := resized (keys.size * stringLength) backingData
  let current ← Buffer.memset .outside ⟨stringLength, stack⟩ 97 (stringLength - 1)
  let current ← current.write .outside (stringLength - 1) 0
  (List.range keys.size).foldlM fillKey ⟨keys, backingData, current⟩

def cmprKeys (backingData : Buffer Int) (key1 key2 fuel : Nat) : ExceptT Fault Option Bool := do
  let order ← backingData.strcmp .outside key1 key2 fuel
  pure (order == 0)

/-- The characters from `p` on are the string that the counter has at `i`. -/
def HoldsKey (b : Buffer Int) (p i : Nat) : Prop :=
  (∀ j < 15, b.cell (p + j) = 97 + (digit 26 i j : Int)) ∧ b.cell (p + 15) = 0

/-- What the first `count` rounds of a call for `n` keys have left. -/
structure Filled (n count : Nat) (s : Filling) : Prop where
  keys_size : s.keys.size = n
  backingData_size : s.backingData.size = n * 16
  current_size : s.current.size = 16
  keys : ∀ i < count, s.keys.cell i = 16 * i
  holds : ∀ i < count, HoldsKey s.backingData (16 * i) i
  current : HoldsKey s.current 0 count

/-- What the benchmarks assume of `n` keys. Each is a string of 15 letters in its
own part of the block, and no two compare equal. -/
structure UniqueKeys (n : Nat) (s : Filling) : Prop where
  keys_size : s.keys.size = n
  backingData_size : s.backingData.size = n * 16
  current_size : s.current.size = 16
  current_nul : s.current.cell 15 = 0
  key : ∀ i < n, s.keys.cell i = 16 * i
  letter : ∀ i < n, ∀ j < 15,
    s.backingData.cell (16 * i + j) = 97 + (i / 26 ^ j % 26 : Nat) ∧
      97 ≤ s.backingData.cell (16 * i + j) ∧ s.backingData.cell (16 * i + j) ≤ 122
  nul : ∀ i < n, s.backingData.cell (16 * i + 15) = 0
  distinct : ∀ i < n, ∀ k < n, ReturnsTo
    (fun fuel => (cmprKeys s.backingData (s.keys.cell i) (s.keys.cell k) fuel).run)
    (.ok (decide (i = k)))

section Advance

/-- A letter of a key is a character, and so is the one after it. -/
theorem increment_letter {d : Nat} (hd : d < 26) :
    increment (97 + (d : Int)) = .ok (97 + ((d + 1 : Nat) : Int)) := by
  rw [increment, if_pos (by omega)]
  congr 1

theorem advance_succ {left j d : Nat} {current : Buffer Int} (hInside : j < current.size)
    (hd : d < 26) (hCell : current.cell j = 97 + (d : Int)) :
    advance (left + 1) j current =
      if d + 1 < 26 then .ok (current.set j (97 + ((d + 1 : Nat) : Int)))
      else advance left (j + 1) ((current.set j (97 + ((d + 1 : Nat) : Int))).set j 97) := by
  have hRead := Buffer.read_of_lt Fault.outside hInside
  have hWrite := Buffer.write_of_lt Fault.outside hInside
  have hAgain := Buffer.write_of_lt Fault.outside
    (b := current.set j (97 + ((d + 1 : Nat) : Int))) hInside
  have hLast : 97 + ((d + 1 : Nat) : Int) ≤ 122 ↔ d + 1 < 26 := by omega
  simp only [advance, hRead, hCell, bind, Except.bind, increment_letter hd, hWrite, hAgain, hLast]
  rfl

/-- The counter where the carry has reached the letter `j`. -/
structure Carrying (i j : Nat) (current : Buffer Int) : Prop where
  size : current.size = 16
  carries : Carries 26 i j
  below : ∀ k < j, current.cell k = 97
  above : ∀ k < 15, j ≤ k → current.cell k = 97 + (digit 26 i k : Int)
  nul : current.cell 15 = 0

/-- The carry ends within the counter, or has turned all its letters. -/
theorem advance_eq {i : Nat} (left j : Nat) (hLeft : left + j = 15) {current : Buffer Int}
    (h : Carrying i j current) :
    ∃ current', advance left j current = .ok current' ∧ current'.size = 16 ∧
      HoldsKey current' 0 (i + 1) := by
  induction left generalizing j current with
  | zero =>
      refine ⟨current, rfl, h.size, fun k hk => ?_, by simpa using h.nul⟩
      rw [Nat.zero_add, h.below k (by omega), digit_succ_of_lt h.carries (by omega)]
      rfl
  | succ left ih =>
      have hDigit := digit_lt (b := 26) (by decide) i j
      have hInside : j < current.size := by
        have hSize := h.size
        omega
      rw [advance_succ hInside hDigit (h.above j (by omega) le_rfl)]
      by_cases hStop : digit 26 i j + 1 < 26
      · -- the letter is not the last one, and the loop breaks
        rw [if_pos hStop]
        refine ⟨_, rfl, h.size, fun k hk => ?_, ?_⟩
        · rw [Nat.zero_add]
          rcases Nat.lt_trichotomy k j with hLt | rfl | hGt
          · rw [Buffer.set_cell_of_ne hLt.ne, h.below k hLt, digit_succ_of_lt h.carries hLt]
            rfl
          · rw [Buffer.set_cell_self, digit_succ_self h.carries hStop]
          · rw [Buffer.set_cell_of_ne hGt.ne', h.above k hk hGt.le,
              digit_succ_of_gt h.carries hStop hGt]
        · rw [Buffer.set_cell_of_ne (by omega)]
          exact h.nul
      · rw [if_neg hStop]
        refine ih (j + 1) (by omega) ⟨h.size, h.carries.next (by omega), fun k hk => ?_,
          fun k hk hj => ?_, ?_⟩
        · rcases Nat.lt_succ_iff_lt_or_eq.mp hk with hLt | rfl
          · rw [Buffer.set_cell_of_ne hLt.ne, Buffer.set_cell_of_ne hLt.ne, h.below k hLt]
          · rw [Buffer.set_cell_self]
        · have hNe : k ≠ j := by omega
          rw [Buffer.set_cell_of_ne hNe, Buffer.set_cell_of_ne hNe, h.above k hk (by omega)]
        · have hNe : 15 ≠ j := by omega
          rw [Buffer.set_cell_of_ne hNe, Buffer.set_cell_of_ne hNe]
          exact h.nul

end Advance

section Fill

variable {n : Nat}

/-- A round copies the counter behind the strings before it. -/
theorem fillKey_eq {i : Nat} (hi : i < n) {s : Filling} (h : Filled n i s) :
    ∃ s', fillKey s i = .ok s' ∧ Filled n (i + 1) s' := by
  have hKeys := h.keys_size
  have hData := h.backingData_size
  have hSize := h.current_size
  have hSet : i < (s.keys.set i (i * stringLength)).size := by
    rw [Buffer.set_size]
    omega
  obtain ⟨data, hCopy, hLength, hCopied, hKept⟩ := Buffer.memcpy_eq Fault.outside
    (show 16 ≤ s.current.size by omega) (show i * 16 + 16 ≤ s.backingData.size by omega)
  have hCounter : Carrying i 0 s.current := {
    size := hSize
    carries := carries_zero 26 i
    below := fun k hk => absurd hk (Nat.not_lt_zero k)
    above := fun k hk _ => by simpa only [Nat.zero_add] using h.current.1 k hk
    nul := by simpa only [Nat.zero_add] using h.current.2 }
  obtain ⟨current, hAdvance, hCurrent, hNext⟩ := advance_eq 15 0 rfl hCounter
  refine ⟨⟨s.keys.set i (i * stringLength), data, current⟩, ?_, hKeys, hLength.trans hData,
    hCurrent, fun k hk => ?_, fun k hk => ?_, hNext⟩
  · have hCopy : s.backingData.memcpy Fault.outside (i * stringLength) s.current stringLength =
        .ok data := hCopy
    have hAdvance : advance (stringLength - 1) 0 s.current = .ok current := hAdvance
    have hRead := Buffer.read_of_lt Fault.outside hSet
    have hWrite := Buffer.write_of_lt Fault.outside (show i < s.keys.size by omega)
    rw [Buffer.set_cell_self] at hRead
    simp only [fillKey, hWrite, bind, Except.bind, hRead, hCopy, hAdvance]
    rfl
  · rcases Nat.lt_succ_iff_lt_or_eq.mp hk with hLt | rfl
    · exact (Buffer.set_cell_of_ne hLt.ne _).trans (h.keys k hLt)
    · exact (Buffer.set_cell_self _).trans (Nat.mul_comm k 16)
  · rcases Nat.lt_succ_iff_lt_or_eq.mp hk with hLt | rfl
    · have hString := h.holds k hLt
      refine ⟨fun j hj => ?_, ?_⟩
      · exact (hKept _ (by omega)).trans (hString.1 j hj)
      · exact (hKept _ (by omega)).trans hString.2
    · rw [Nat.mul_comm 16 k]
      refine ⟨fun j hj => ?_, ?_⟩
      · exact (hCopied j (by omega)).trans (hCounter.above j hj (Nat.zero_le j))
      · exact (hCopied 15 (by omega)).trans hCounter.nul

/-- Every call ends without a fault, for any number of keys. -/
theorem fillUniqueKeys_eq (keys : Buffer Nat) (backingData : Buffer Int) (stack : Nat → Int) :
    ∃ s, fillUniqueKeys keys backingData stack = .ok s ∧ Filled keys.size keys.size s := by
  obtain ⟨current, hMemset, hSize, hLetters, -⟩ := Buffer.memset_eq Fault.outside (c := 97)
    (show stringLength - 1 ≤ (⟨stringLength, stack⟩ : Buffer Int).size from Nat.sub_le ..)
  have hInside : stringLength - 1 < current.size := hSize ▸ Nat.lt_add_one 15
  have hWrite := Buffer.write_of_lt Fault.outside hInside (0 : Int)
  have hFirst : Filled keys.size 0
      ⟨keys, resized (keys.size * stringLength) backingData, current.set (stringLength - 1) 0⟩ := {
    keys_size := rfl
    backingData_size := rfl
    current_size := hSize
    keys := fun k hk => absurd hk (Nat.not_lt_zero k)
    holds := fun k hk => absurd hk (Nat.not_lt_zero k)
    current := by
      refine ⟨fun j hj => ?_, Buffer.set_cell_self _⟩
      have hLt : 0 + j < 15 := by omega
      have hCell : (current.set 15 0).cell (0 + j) = 97 := by
        rw [Buffer.set_cell_of_ne hLt.ne]
        exact hLetters _ hLt
      rw [digit_zero]
      exact hCell }
  obtain ⟨s, hRun, hFilled⟩ := foldlM_range (Filled keys.size) hFirst fun i hi s => fillKey_eq hi
  refine ⟨s, ?_, hFilled⟩
  simp only [fillUniqueKeys, hMemset, bind, Except.bind, hWrite]
  exact hRun

end Fill

section Compare

variable {b : Buffer Int} {p q i k : Nat}

theorem HoldsKey.letter (h : HoldsKey b p i) {j : Nat} (hj : j < 15) :
    97 ≤ b.cell (p + j) ∧ b.cell (p + j) ≤ 122 := by
  have hDigit := digit_lt (b := 26) (by decide) i j
  rw [h.1 j hj]
  omega

/-- Two strings of the counter compare equal only if they are of one round. -/
theorem cmprKeys_returns (hp : p + 16 ≤ b.size) (hq : q + 16 ≤ b.size) (hi : i < 26 ^ 15)
    (hk : k < 26 ^ 15) (hFirst : HoldsKey b p i) (hSecond : HoldsKey b q k) :
    ReturnsTo (fun fuel => (cmprKeys b p q fuel).run) (.ok (decide (i = k))) := by
  have hEq (j : Nat) (hj : j < 15) (hDigit : digit 26 i j = digit 26 k j) :
      b.cell (p + j) ≠ 0 ∧ b.cell (p + j) = b.cell (q + j) := by
    have hLetter := (hFirst.letter hj).1
    refine ⟨by omega, ?_⟩
    rw [hFirst.1 j hj, hSecond.1 j hj, hDigit]
  by_cases hSame : i = k
  · subst hSame
    have hOrder := Buffer.strcmp_returns Fault.outside (m := 15) (by omega) (by omega)
      (fun j hj => hEq j hj rfl) (fun h => h.1 hFirst.2)
    rw [hFirst.2, hSecond.2] at hOrder
    rw [decide_eq_true rfl]
    exact hOrder.andThen (ReturnsTo.pure _)
  · have hDiffer : ∃ j, j < 15 ∧ digit 26 i j ≠ digit 26 k j := by
      by_contra hNone
      push Not at hNone
      exact hSame (eq_of_digit_eq hi hk hNone)
    classical
    obtain ⟨hLt, hNe⟩ := Nat.find_spec hDiffer
    have hBefore (j : Nat) (hj : j < Nat.find hDiffer) : digit 26 i j = digit 26 k j := by
      by_contra hNot
      exact Nat.find_min hDiffer hj ⟨hj.trans hLt, hNot⟩
    generalize Nat.find hDiffer = m at hLt hNe hBefore
    have hLetter := hFirst.letter hLt
    have hLetter' := hSecond.letter hLt
    have hCell : b.cell (p + m) ≠ b.cell (q + m) := by
      rw [hFirst.1 m hLt, hSecond.1 m hLt]
      omega
    have hOrder := Buffer.strcmp_returns Fault.outside (m := m) (by omega) (by omega)
      (fun j hj => hEq j (hj.trans hLt) (hBefore j hj)) (fun h => hCell h.2)
    rw [decide_eq_false hSame]
    refine hOrder.andThen ?_
    have hOrderNe : b.cell (p + m) % 256 - b.cell (q + m) % 256 ≠ 0 := by omega
    rw [beq_eq_false_iff_ne.mpr hOrderNe]
    exact ReturnsTo.pure _

end Compare

/-- Up to `26 ^ 15` keys are filled in without a fault and are unique. -/
theorem fill_unique_keys_unique (keys : Buffer Nat) (backingData : Buffer Int)
    (stack : Nat → Int) (h : keys.size ≤ 26 ^ 15) :
    ∃ s, fillUniqueKeys keys backingData stack = .ok s ∧ UniqueKeys keys.size s := by
  obtain ⟨s, hRun, hFilled⟩ := fillUniqueKeys_eq keys backingData stack
  have hData := hFilled.backingData_size
  refine ⟨s, hRun, hFilled.keys_size, hData, hFilled.current_size, hFilled.current.2,
    hFilled.keys, fun i hi j hj => ?_, fun i hi => (hFilled.holds i hi).2, fun i hi k hk => ?_⟩
  · exact ⟨(hFilled.holds i hi).1 j hj, (hFilled.holds i hi).letter hj⟩
  · rw [hFilled.keys i hi, hFilled.keys k hk]
    exact cmprKeys_returns (by omega) (by omega) (hi.trans_le h) (hk.trans_le h)
      (hFilled.holds i hi) (hFilled.holds k hk)

/-- More keys than the first letter tells apart, over what an earlier call left. -/
theorem fill_unique_keys_unique_refill : ∃ s,
    fillUniqueKeys ⟨30, fun _ => 0⟩ ⟨16, fun _ => 97⟩ (fun _ => -1) = .ok s ∧ UniqueKeys 30 s :=
  fill_unique_keys_unique ⟨30, fun _ => 0⟩ ⟨16, fun _ => 97⟩ (fun _ => -1) (by decide)

end HashBench.Blueprints.CstringUint64Fnv1a
