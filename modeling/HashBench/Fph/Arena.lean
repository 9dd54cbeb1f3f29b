import HashBench.Library.Buffer
import Mathlib.Data.List.GetD
import Mathlib.Tactic.Linarith

/-! The generator of fill keys for blueprints of C strings. All strings are in
one vector, and the pointers to them stay in the slots of the tables. -/
namespace HashBench.Fph

open Memory

/-- An access outside of the arena, or a loop that does not end. -/
inductive Fault where
  | outside
  | endless
  deriving DecidableEq, Repr

/-- The capacity that a vector asks for when its storage has to be replaced. -/
structure Allocator where
  capacityFor : (size request : Nat) → Nat
  le_capacityFor (size request : Nat) : request ≤ capacityFor size request

/-- A vector of characters. Each storage that it has had is a block. -/
structure Arena where
  block : Nat
  capacity : Nat
  data : Buffer Char
  size_le : data.size ≤ capacity

structure Pointer where
  block : Nat
  offset : Nat
  deriving DecidableEq, Repr

def nul : Char := Char.ofNat 0

namespace Arena

def empty : Arena where
  block := 0
  capacity := 0
  data := ⟨0, fun _ => nul⟩
  size_le := Nat.le_refl 0

/-- `reserve`. The characters are copied to a new block if they have to move. -/
def reserve (alloc : Allocator) (request : Nat) (a : Arena) : Arena :=
  if h : a.capacity < request then
    { block := a.block + 1
      capacity := alloc.capacityFor a.data.size request
      data := a.data
      size_le := (a.size_le.trans h.le).trans (alloc.le_capacityFor a.data.size request) }
  else a

/-- The characters of `b`, with NUL characters after them or cut off. -/
def resized (size : Nat) (b : Buffer Char) : Buffer Char :=
  ⟨size, fun p => if p < b.size then b.cell p else nul⟩

/-- `resize`. -/
def resize (alloc : Allocator) (size : Nat) (a : Arena) : Arena :=
  if h : a.capacity < size then
    { block := a.block + 1
      capacity := alloc.capacityFor a.data.size size
      data := resized size a.data
      size_le := alloc.le_capacityFor a.data.size size }
  else
    { a with
      data := resized size a.data
      size_le := Nat.not_lt.mp h }

def write (p : Nat) (c : Char) (a : Arena) : Except Fault Arena :=
  if p < a.data.size then .ok { a with data := a.data.set p c } else .error .outside

end Arena

/-- The static members. They are shared by all generators of a blueprint. -/
structure Generator where
  memoryArena : Arena
  nextStringOffset : Nat
  rngState : BitVec 64

namespace Generator

def initial : Generator where
  memoryArena := .empty
  nextStringOffset := 0
  rngState := 0x123456789ABCDEF1#64

/-- The constructor. -/
def construct (alloc : Allocator) (stringLength : Nat) (g : Generator) : Generator :=
  if g.memoryArena.capacity = 0 then
    { g with memoryArena := g.memoryArena.reserve alloc (stringLength * 16) }
  else g

/-- The next random word, and the state of the random number generator. -/
def nextRng (rngState : BitVec 64) : BitVec 64 × BitVec 64 :=
  let z := rngState + 0x9e3779b97f4a7c15#64
  let rngState := z
  let z := (z ^^^ (z >>> 30)) * 0xbf58476d1ce4e5b9#64
  let z := (z ^^^ (z >>> 27)) * 0x94d049bb133111eb#64
  (z ^^^ (z >>> 31), rngState)

def alphabet : List Char := "abcdefghijklmnopqrstuvwxyz012345".toList

def mask : BitVec 64 := 0x1F#64

def letter (randomBits : BitVec 64) : Char := alphabet.getD (randomBits &&& mask).toNat nul

/-- At most `j` characters, from one random word. -/
def fillWord (dest last : Nat) : (j : Nat) → (randomBits : BitVec 64) → (i : Nat) → Arena →
    Except Fault (Nat × Arena)
  | 0, _, i, arena => pure (i, arena)
  | j + 1, randomBits, i, arena =>
      if i < last then do
        let arena ← arena.write (dest + i) (letter randomBits)
        fillWord dest last j (randomBits >>> 5) (i + 1) arena
      else pure (i, arena)

/-- The characters from `i` on, in at most so many rounds. -/
def fill (dest last : Nat) : (rounds : Nat) → (i : Nat) → (rngState : BitVec 64) → Arena →
    Except Fault (BitVec 64 × Arena)
  | 0, i, rngState, arena => if i < last then .error .endless else pure (rngState, arena)
  | rounds + 1, i, rngState, arena =>
      if i < last then do
        let (randomBits, rngState) := nextRng rngState
        let (i, arena) ← fillWord dest last 12 randomBits i arena
        fill dest last rounds i rngState arena
      else pure (rngState, arena)

/-- The arena that a call writes into. -/
def grown (alloc : Allocator) (stringLength : Nat) (g : Generator) : Arena :=
  if g.memoryArena.data.size < g.nextStringOffset + stringLength then
    g.memoryArena.resize alloc (g.memoryArena.data.size * 2 + stringLength * 16)
  else g.memoryArena

/-- `operator()`. -/
def call (alloc : Allocator) (stringLength : Nat) (g : Generator) :
    Except Fault (Pointer × Generator) := do
  let arena := g.grown alloc stringLength
  let dest := g.nextStringOffset
  let (rngState, arena) ← fill dest (stringLength - 1) stringLength 0 g.rngState arena
  let arena ← arena.write (dest + (stringLength - 1)) nul
  pure (⟨arena.block, dest⟩, ⟨arena, g.nextStringOffset + stringLength, rngState⟩)

end Generator

/-- What the library does with generators: it makes objects, and calls them. -/
inductive Event where
  | construct
  | call
  deriving DecidableEq, Repr

/-- A pointer that a call has returned, and the characters there at that time. -/
structure Handed where
  pointer : Pointer
  text : List Char

def Arena.text (offset length : Nat) (a : Arena) : List Char :=
  (List.range length).map fun i => a.data.cell (offset + i)

def step (alloc : Allocator) (stringLength : Nat) :
    Generator × List Handed → Event → Except Fault (Generator × List Handed)
  | (g, handed), .construct => pure (g.construct alloc stringLength, handed)
  | (g, handed), .call => do
      let (pointer, g) ← g.call alloc stringLength
      pure (g, handed ++ [⟨pointer, g.memoryArena.text pointer.offset stringLength⟩])

/-- All events from the start of the program on. -/
def run (alloc : Allocator) (stringLength : Nat) (events : List Event) :
    Except Fault (Generator × List Handed) :=
  events.foldlM (step alloc stringLength) (.initial, [])

/-- The pointer is still into the storage of the arena, and at its own string. -/
def Handed.Lives (stringLength : Nat) (a : Arena) (h : Handed) : Prop :=
  h.pointer.block = a.block ∧ h.pointer.offset + stringLength ≤ a.data.size ∧
    a.text h.pointer.offset stringLength = h.text

/-- So many characters of which the last, and only the last, is NUL. -/
def IsCString (stringLength : Nat) (text : List Char) : Prop :=
  ∃ letters, text = letters ++ [nul] ∧ nul ∉ letters ∧ letters.length + 1 = stringLength

/-- The strings that the arena has room for after it has grown `k` times. -/
def room (k : Nat) : Nat := 16 * (2 ^ k - 1)

section Writing

open Generator

/-- Letters have been written in a range, and nothing else. -/
structure Wrote (lo hi : Nat) (a a' : Arena) : Prop where
  block_eq : a'.block = a.block
  capacity_eq : a'.capacity = a.capacity
  size_eq : a'.data.size = a.data.size
  kept : ∀ p, p < lo ∨ hi ≤ p → a'.data.cell p = a.data.cell p
  letters : ∀ p, lo ≤ p → p < hi → a'.data.cell p ∈ alphabet

theorem Wrote.refl (lo : Nat) (a : Arena) : Wrote lo lo a a :=
  ⟨rfl, rfl, rfl, fun _ _ => rfl, fun _ hLo hHi => absurd hHi (Nat.not_lt.mpr hLo)⟩

theorem Wrote.trans {lo mid hi : Nat} {a a' a'' : Arena} (h : Wrote lo mid a a')
    (h' : Wrote mid hi a' a'') (hLo : lo ≤ mid) (hHi : mid ≤ hi) : Wrote lo hi a a'' where
  block_eq := h'.block_eq.trans h.block_eq
  capacity_eq := h'.capacity_eq.trans h.capacity_eq
  size_eq := h'.size_eq.trans h.size_eq
  kept p hp := by rw [h'.kept p (by omega), h.kept p (by omega)]
  letters p hp hp' := by
    by_cases hMid : p < mid
    · rw [h'.kept p (Or.inl hMid)]
      exact h.letters p hp hMid
    · exact h'.letters p (Nat.not_lt.mp hMid) hp'

theorem letter_mem (randomBits : BitVec 64) : letter randomBits ∈ alphabet := by
  have hLt : (randomBits &&& mask).toNat < alphabet.length := by
    rw [BitVec.toNat_and]
    exact Nat.lt_of_le_of_lt Nat.and_le_right (by decide)
  rw [letter, List.getD_eq_getElem _ _ hLt]
  exact List.getElem_mem hLt

theorem nul_not_mem_alphabet : nul ∉ alphabet := by decide

theorem write_letter {p : Nat} {a : Arena} (hp : p < a.data.size) {c : Char} (hc : c ∈ alphabet) :
    ∃ a', a.write p c = .ok a' ∧ Wrote p (p + 1) a a' := by
  refine ⟨_, if_pos hp, rfl, rfl, rfl, fun q hq => ?_, fun q hq hq' => ?_⟩
  · exact Buffer.set_cell_of_ne (by omega) c
  · obtain rfl : q = p := by omega
    simpa using hc

/-- One word fills twelve places, or as many as are left. -/
theorem fillWord_spec {dest last j i : Nat} {a : Arena} (randomBits : BitVec 64)
    (hRoom : dest + last ≤ a.data.size) (hi : i ≤ last) :
    ∃ a', fillWord dest last j randomBits i a = .ok (min (i + j) last, a') ∧
      Wrote (dest + i) (dest + min (i + j) last) a a' := by
  induction j generalizing i a randomBits with
  | zero =>
      rw [Nat.add_zero, Nat.min_eq_left hi]
      exact ⟨a, rfl, Wrote.refl _ a⟩
  | succ j ih =>
      by_cases hLt : i < last
      · obtain ⟨a', hWrite, hWrote⟩ := write_letter (show dest + i < a.data.size by omega)
          (letter_mem randomBits)
        obtain ⟨a'', hFill, hRest⟩ := ih (i := i + 1) (a := a') (randomBits >>> 5)
          (hWrote.size_eq ▸ hRoom) hLt
        rw [Nat.add_right_comm, Nat.add_assoc i j 1] at hFill hRest
        refine ⟨a'', ?_, hWrote.trans hRest (by omega) (by omega)⟩
        rw [fillWord, if_pos hLt, hWrite]
        exact hFill
      · obtain rfl : i = last := by omega
        refine ⟨a, ?_, ?_⟩
        · rw [fillWord, if_neg hLt, Nat.min_eq_right (by omega)]
          rfl
        · rw [Nat.min_eq_right (by omega)]
          exact Wrote.refl _ a

theorem fill_spec {dest last rounds i : Nat} {a : Arena} (rngState : BitVec 64)
    (hRoom : dest + last ≤ a.data.size) (hi : i ≤ last) (hRounds : last ≤ i + rounds) :
    ∃ rngState' a', fill dest last rounds i rngState a = .ok (rngState', a') ∧
      Wrote (dest + i) (dest + last) a a' := by
  induction rounds generalizing i a rngState with
  | zero =>
      obtain rfl : i = last := by omega
      exact ⟨rngState, a, if_neg (lt_irrefl i), Wrote.refl _ a⟩
  | succ rounds ih =>
      by_cases hLt : i < last
      · obtain ⟨a', hWord, hWrote⟩ := fillWord_spec (j := 12) (nextRng rngState).1 hRoom hi
        obtain ⟨rngState', a'', hFill, hRest⟩ := ih (i := min (i + 12) last) (a := a')
          (nextRng rngState).2 (hWrote.size_eq ▸ hRoom) (by omega) (by omega)
        refine ⟨rngState', a'', ?_, hWrote.trans hRest (by omega) (by omega)⟩
        rw [fill, if_pos hLt]
        change (fillWord dest last 12 (nextRng rngState).1 i a >>= _) = _
        rw [hWord]
        exact hFill
      · obtain rfl : i = last := by omega
        exact ⟨rngState, a, if_neg hLt, Wrote.refl _ a⟩

end Writing

section Growing

open Generator

variable (alloc : Allocator) {L : Nat}

theorem room_succ (k : Nat) : room (k + 1) = room k * 2 + 16 := by
  have hPos : 0 < 2 ^ k := Nat.two_pow_pos k
  rw [room, room, Nat.pow_succ]
  omega

theorem room_mono {j k : Nat} (h : j ≤ k) : room j ≤ room k :=
  Nat.mul_le_mul_left 16 (Nat.sub_le_sub_right (Nat.pow_le_pow_right Nat.two_pos h) 1)

/-- Growing keeps what is in the arena. It is a new block exactly when the
capacity does not suffice. -/
theorem resize_spec (size : Nat) (a : Arena) :
    (a.resize alloc size).data.size = size ∧
      (∀ p < a.data.size, (a.resize alloc size).data.cell p = a.data.cell p) ∧
      (size ≤ a.capacity → (a.resize alloc size).block = a.block ∧
        (a.resize alloc size).capacity = a.capacity) ∧
      (a.capacity < size → (a.resize alloc size).block = a.block + 1) := by
  by_cases h : a.capacity < size
  · rw [Arena.resize, dif_pos h]
    exact ⟨rfl, fun p hp => if_pos hp, fun hLe => absurd h (Nat.not_lt.mpr hLe), fun _ => rfl⟩
  · rw [Arena.resize, dif_neg h]
    exact ⟨rfl, fun p hp => if_pos hp, fun _ => ⟨rfl, rfl⟩, fun hLt => absurd hLt h⟩

/-- A call writes one string at the offset, into an arena that has room for it. -/
theorem call_spec {g : Generator} (hL : 0 < L)
    (hRoom : g.nextStringOffset + L ≤ (g.grown alloc L).data.size) :
    ∃ g', g.call alloc L = .ok (⟨g'.memoryArena.block, g.nextStringOffset⟩, g') ∧
      g'.nextStringOffset = g.nextStringOffset + L ∧
      g'.memoryArena.block = (g.grown alloc L).block ∧
      g'.memoryArena.capacity = (g.grown alloc L).capacity ∧
      g'.memoryArena.data.size = (g.grown alloc L).data.size ∧
      (∀ p < g.nextStringOffset,
        g'.memoryArena.data.cell p = (g.grown alloc L).data.cell p) ∧
      IsCString L (g'.memoryArena.text g.nextStringOffset L) := by
  obtain ⟨rngState, a, hFill, hWrote⟩ : ∃ rngState a,
      fill g.nextStringOffset (L - 1) L 0 g.rngState (g.grown alloc L) = .ok (rngState, a) ∧
        Wrote (g.nextStringOffset + 0) (g.nextStringOffset + (L - 1)) (g.grown alloc L) a :=
    fill_spec g.rngState (by omega) (Nat.zero_le _) (by omega)
  have hLast : g.nextStringOffset + (L - 1) < a.data.size := by
    rw [hWrote.size_eq]
    omega
  refine ⟨⟨{ a with data := a.data.set (g.nextStringOffset + (L - 1)) nul },
    g.nextStringOffset + L, rngState⟩, ?_, rfl, hWrote.block_eq, hWrote.capacity_eq,
    hWrote.size_eq, fun p hp => ?_, ?_⟩
  · rw [Generator.call, hFill]
    change (a.write (g.nextStringOffset + (L - 1)) nul >>= _) = _
    rw [Arena.write, if_pos hLast]
    rfl
  · change (a.data.set _ nul).cell p = _
    rw [Buffer.set_cell_of_ne (by omega), hWrote.kept p (by omega)]
  · obtain ⟨last, rfl⟩ : ∃ last, L = last + 1 := ⟨L - 1, by omega⟩
    refine ⟨a.text g.nextStringOffset last, ?_, fun hMem => ?_, by simp [Arena.text]⟩
    · rw [Arena.text, List.range_succ, List.map_append, Nat.add_sub_cancel]
      refine congrArg₂ _ (List.map_congr_left fun i hi => ?_) ?_
      · exact Buffer.set_cell_of_ne (by rw [List.mem_range] at hi; omega) nul
      · exact congrArg (fun c => [c]) (Buffer.set_cell_self nul)
    · obtain ⟨i, hi, hNul⟩ := List.mem_map.mp hMem
      rw [List.mem_range] at hi
      have hLetter := hWrote.letters (g.nextStringOffset + i) (by omega) (by omega)
      rw [hNul] at hLetter
      exact nul_not_mem_alphabet hLetter

end Growing

section Runs

open Generator

variable (alloc : Allocator) {L : Nat}

/-- After `n` calls. As long as the arena fits into the storage that was
reserved, it is the first block; then the pointers into that are stale. -/
structure Invariant (L : Nat) (g : Generator) (handed : List Handed) : Prop where
  offset_eq : g.nextStringOffset = handed.length * L
  size_eq : ∃ k, g.memoryArena.data.size = room k * L ∧ handed.length ≤ room k ∧
    ∀ j < k, room j < handed.length
  strings : ∀ k h, handed[k]? = some h → h.pointer.offset = k * L ∧ IsCString L h.text ∧
    g.memoryArena.text (k * L) L = h.text
  capacity_pos : 0 < g.memoryArena.capacity
  first : g.memoryArena.data.size ≤ alloc.capacityFor 0 (L * 16) →
    g.memoryArena.block = 1 ∧ g.memoryArena.capacity = alloc.capacityFor 0 (L * 16) ∧
      ∀ h ∈ handed, h.pointer.block = 1
  moved : alloc.capacityFor 0 (L * 16) < g.memoryArena.data.size →
    1 < g.memoryArena.block ∧ ∃ h ∈ handed, h.pointer.block = 1

variable {alloc} {g : Generator} {handed : List Handed}

theorem invariant_construct (hL : 0 < L) :
    Invariant alloc L (Generator.initial.construct alloc L) [] := by
  have hReserve : Generator.initial.construct alloc L =
      { Generator.initial with memoryArena := Arena.empty.reserve alloc (L * 16) } := if_pos rfl
  have hArena : Arena.empty.reserve alloc (L * 16) = ⟨1, alloc.capacityFor 0 (L * 16),
      Arena.empty.data, Nat.zero_le _⟩ := dif_pos (show 0 < L * 16 by omega)
  rw [hReserve, hArena]
  have hLe := alloc.le_capacityFor 0 (L * 16)
  refine ⟨(Nat.zero_mul L).symm, ⟨0, (Nat.zero_mul L).symm, Nat.le_refl 0, ?_⟩, ?_,
    Nat.lt_of_lt_of_le (show 0 < L * 16 by omega) hLe, fun _ => ⟨rfl, rfl, ?_⟩, fun hLt => ?_⟩
  · exact fun j hj => absurd hj (Nat.not_lt_zero j)
  · exact fun k h hk => nomatch hk
  · exact fun h hMem => nomatch hMem
  · exact absurd hLt (Nat.not_lt_zero _)

/-- Later generators find the arena in place. -/
theorem Invariant.construct_eq (inv : Invariant alloc L g handed) : g.construct alloc L = g :=
  if_neg inv.capacity_pos.ne'

/-- The arena grows only when it is full, and has a next room then. -/
theorem Invariant.grown_cases (inv : Invariant alloc L g handed) (hL : 0 < L) :
    ∃ k, (g.grown alloc L).data.size = room k * L ∧ handed.length + 1 ≤ room k ∧
      (∀ j < k, room j < handed.length + 1) ∧
      (g.grown alloc L = g.memoryArena ∨ handed.length * L = g.memoryArena.data.size ∧
        g.grown alloc L = g.memoryArena.resize alloc (room k * L)) := by
  obtain ⟨k, hSize, hLe, hLess⟩ := inv.size_eq
  by_cases hFull : g.memoryArena.data.size < g.nextStringOffset + L
  · have hRoom : room k = handed.length := by
      rw [hSize, inv.offset_eq, ← Nat.succ_mul] at hFull
      have hLt := Nat.lt_of_mul_lt_mul_right hFull
      omega
    have hGrown : g.grown alloc L = g.memoryArena.resize alloc (room (k + 1) * L) := by
      rw [Generator.grown, if_pos hFull, hSize, room_succ, Nat.add_mul, Nat.mul_right_comm,
        Nat.mul_comm L 16]
    refine ⟨k + 1, ?_, ?_, fun j hj => ?_, Or.inr ⟨?_, hGrown⟩⟩
    · rw [hGrown, (resize_spec alloc _ _).1]
    · rw [room_succ]
      omega
    · have hMono := room_mono (Nat.le_of_lt_succ hj)
      omega
    · rw [hSize, hRoom]
  · refine ⟨k, ?_, ?_, fun j hj => ?_, Or.inl (if_neg hFull)⟩
    · rw [Generator.grown, if_neg hFull, hSize]
    · rw [hSize, inv.offset_eq, ← Nat.succ_mul] at hFull
      exact Nat.le_of_mul_le_mul_right (Nat.not_lt.mp hFull) hL
    · exact Nat.lt_succ_of_lt (hLess j hj)

/-- Before a call: the arena that it writes into, with the same strings. -/
theorem Invariant.grown_cell (inv : Invariant alloc L g handed) (hL : 0 < L) {p : Nat}
    (hp : p < handed.length * L) : (g.grown alloc L).data.cell p = g.memoryArena.data.cell p := by
  obtain ⟨k, -, -, -, hSame | ⟨hFull, hGrown⟩⟩ := inv.grown_cases hL
  · rw [hSame]
  · rw [hGrown]
    exact (resize_spec alloc _ _).2.1 p (hFull ▸ hp)

theorem Invariant.size_grown_le (inv : Invariant alloc L g handed) (hL : 0 < L) :
    g.memoryArena.data.size ≤ (g.grown alloc L).data.size := by
  obtain ⟨k, hSize, hLe, -, hSame | ⟨hFull, -⟩⟩ := inv.grown_cases hL
  · rw [hSame]
  · rw [hSize, ← hFull]
    exact Nat.mul_le_mul_right L (by omega)

theorem Invariant.grown_first (inv : Invariant alloc L g handed) (hL : 0 < L)
    (hFits : (g.grown alloc L).data.size ≤ alloc.capacityFor 0 (L * 16)) :
    (g.grown alloc L).block = 1 ∧ (g.grown alloc L).capacity = alloc.capacityFor 0 (L * 16) ∧
      ∀ h ∈ handed, h.pointer.block = 1 := by
  obtain ⟨hBlock, hCapacity, hHanded⟩ := inv.first ((inv.size_grown_le hL).trans hFits)
  obtain ⟨k, hSize, -, -, hSame | ⟨-, hGrown⟩⟩ := inv.grown_cases hL
  · rw [hSame]
    exact ⟨hBlock, hCapacity, hHanded⟩
  · rw [hSize, ← hCapacity] at hFits
    obtain ⟨hBlock', hCapacity'⟩ := (resize_spec alloc (room k * L) g.memoryArena).2.2.1 hFits
    rw [hGrown]
    exact ⟨hBlock'.trans hBlock, hCapacity'.trans hCapacity, hHanded⟩

/-- A first string is there before the arena outgrows its first block. -/
theorem Invariant.grown_moved (inv : Invariant alloc L g handed) (hL : 0 < L)
    (hExceeds : alloc.capacityFor 0 (L * 16) < (g.grown alloc L).data.size) :
    1 < (g.grown alloc L).block ∧ ∃ h ∈ handed, h.pointer.block = 1 := by
  obtain ⟨k, hSize, hLe, hLess, hSame | ⟨hFull, hGrown⟩⟩ := inv.grown_cases hL
  · rw [hSame] at hExceeds ⊢
    exact inv.moved hExceeds
  · have hResize := resize_spec alloc (room k * L) g.memoryArena
    rw [hGrown]
    by_cases hBefore : alloc.capacityFor 0 (L * 16) < g.memoryArena.data.size
    · obtain ⟨hBlock, hStale⟩ := inv.moved hBefore
      refine ⟨?_, hStale⟩
      by_cases hCapacity : g.memoryArena.capacity < room k * L
      · rw [hResize.2.2.2 hCapacity]
        omega
      · rwa [(hResize.2.2.1 (Nat.not_lt.mp hCapacity)).1]
    · obtain ⟨hBlock, hCapacity, hHanded⟩ := inv.first (Nat.not_lt.mp hBefore)
      rw [hSize, ← hCapacity] at hExceeds
      refine ⟨by rw [hResize.2.2.2 hExceeds, hBlock]; decide, ?_⟩
      have hNonempty : handed ≠ [] := by
        rintro rfl
        have hOne : k ≤ 1 := by
          by_contra hMore
          exact absurd (hLess 1 (by omega)) (by decide)
        have hRoom : room k * L ≤ L * 16 := by
          rw [Nat.mul_comm]
          exact Nat.mul_le_mul_left L (room_mono hOne)
        have hReserved := alloc.le_capacityFor 0 (L * 16)
        omega
      exact ⟨handed.head hNonempty, List.head_mem hNonempty, hHanded _ (List.head_mem hNonempty)⟩

/-- What a call returns is kept with the other strings. -/
theorem Invariant.call (inv : Invariant alloc L g handed) (hL : 0 < L) :
    ∃ g' h, step alloc L (g, handed) .call = .ok (g', handed ++ [h]) ∧
      Invariant alloc L g' (handed ++ [h]) := by
  obtain ⟨k, hSize, hLe, hLess, -⟩ := inv.grown_cases hL
  have hEnd : (handed.length + 1) * L ≤ room k * L := Nat.mul_le_mul_right L hLe
  obtain ⟨g', hCall, hOffset, hBlock, hCapacity, hSize', hKept, hString⟩ :=
    call_spec alloc (g := g) hL (by rw [inv.offset_eq, ← Nat.succ_mul, hSize]; exact hEnd)
  rw [inv.offset_eq] at hCall hOffset hKept hString
  refine ⟨g', ⟨⟨g'.memoryArena.block, handed.length * L⟩,
    g'.memoryArena.text (handed.length * L) L⟩, ?_, ?_⟩
  · rw [step, hCall]
    rfl
  refine ⟨?_, ⟨k, hSize'.trans hSize, by simpa using hLe, by simpa using hLess⟩, ?_, ?_, ?_, ?_⟩
  · rw [hOffset, List.length_append, Nat.add_mul]
    exact congrArg _ (Nat.one_mul L).symm
  · intro j h hj
    rcases Nat.lt_trichotomy j handed.length with hOld | rfl | hBeyond
    · rw [List.getElem?_append_left hOld] at hj
      obtain ⟨hAt, hText, hSame⟩ := inv.strings j h hj
      refine ⟨hAt, hText, hSame ▸ List.map_congr_left fun i hi => ?_⟩
      have hPlace : j * L + i < handed.length * L := by
        have hNext : (j + 1) * L ≤ handed.length * L := Nat.mul_le_mul_right L hOld
        rw [Nat.succ_mul] at hNext
        exact Nat.lt_of_lt_of_le (Nat.add_lt_add_left (List.mem_range.mp hi) _) hNext
      rw [hKept _ hPlace, inv.grown_cell hL hPlace]
    · rw [List.getElem?_concat_length] at hj
      cases hj
      exact ⟨rfl, hString, rfl⟩
    · rw [List.getElem?_eq_none (by rw [List.length_append]; exact hBeyond)] at hj
      cases hj
  · have hPos : 0 < room k * L := Nat.mul_pos (by omega) hL
    exact Nat.lt_of_lt_of_le (by rw [hSize', hSize]; exact hPos) g'.memoryArena.size_le
  · intro hFits
    obtain ⟨hFirst, hReserved, hHanded⟩ := inv.grown_first hL (hSize' ▸ hFits)
    refine ⟨hBlock.trans hFirst, hCapacity.trans hReserved, fun h hMem => ?_⟩
    rcases List.mem_append.mp hMem with hOld | hNew
    · exact hHanded h hOld
    · cases List.mem_singleton.mp hNew
      exact hBlock.trans hFirst
  · intro hExceeds
    obtain ⟨hLater, h, hMem, hStale⟩ := inv.grown_moved hL (hSize' ▸ hExceeds)
    exact ⟨hBlock ▸ hLater, h, List.mem_append_left _ hMem, hStale⟩

theorem Invariant.room_le (inv : Invariant alloc L g handed) {k : Nat} {h : Handed}
    (hk : handed[k]? = some h) : k * L + L ≤ g.memoryArena.data.size := by
  obtain ⟨j, hSize, hLe, -⟩ := inv.size_eq
  obtain ⟨hLt, -⟩ := List.getElem?_eq_some_iff.mp hk
  rw [hSize, ← Nat.succ_mul]
  exact Nat.mul_le_mul_right L (hLt.trans_le hLe)

/-- The strings are in separate parts of the arena. -/
theorem Invariant.disjoint (inv : Invariant alloc L g handed) :
    handed.Pairwise fun h h' => h.pointer.offset + L ≤ h'.pointer.offset := by
  rw [List.pairwise_iff_getElem]
  intro i j hi hj hLt
  rw [(inv.strings i _ (List.getElem?_eq_getElem hi)).1,
    (inv.strings j _ (List.getElem?_eq_getElem hj)).1, ← Nat.succ_mul]
  exact Nat.mul_le_mul_right L hLt

/-- All pointers are good exactly as long as no growth has needed more than
the storage that was reserved. -/
theorem Invariant.lives_iff (inv : Invariant alloc L g handed) :
    (∀ h ∈ handed, h.Lives L g.memoryArena) ↔
      ∀ k, room k < handed.length → room (k + 1) * L ≤ alloc.capacityFor 0 (L * 16) := by
  obtain ⟨k, hSize, hLe, hLess⟩ := inv.size_eq
  constructor
  · intro hLive j hj
    by_contra hNot
    have hBelow : j < k := by
      by_contra hAbove
      have hMono := room_mono (Nat.not_lt.mp hAbove)
      omega
    have hGrown : room (j + 1) * L ≤ g.memoryArena.data.size :=
      hSize ▸ Nat.mul_le_mul_right L (room_mono hBelow)
    obtain ⟨hLater, h, hMem, hStale⟩ := inv.moved (by omega)
    have hSame := (hLive h hMem).1
    omega
  · intro hFits h hMem
    have hStays : g.memoryArena.data.size ≤ alloc.capacityFor 0 (L * 16) := by
      rw [hSize]
      cases k with
      | zero => exact (Nat.zero_mul L).trans_le (Nat.zero_le _)
      | succ j => exact hFits j (hLess j j.lt_succ_self)
    obtain ⟨hBlock, -, hHanded⟩ := inv.first hStays
    obtain ⟨j, hj⟩ := List.mem_iff_getElem?.mp hMem
    obtain ⟨hOffset, -, hText⟩ := inv.strings j h hj
    refine ⟨(hHanded h hMem).trans hBlock.symm, ?_, hOffset ▸ hText⟩
    exact hOffset ▸ inv.room_le hj

/-- Events after the first generator is there. None of them faults. -/
theorem Invariant.run (hL : 0 < L) (events : List Event) (inv : Invariant alloc L g handed) :
    ∃ g' handed', events.foldlM (step alloc L) (g, handed) = .ok (g', handed') ∧
      handed'.length = handed.length + events.count .call ∧ Invariant alloc L g' handed' := by
  induction events generalizing g handed with
  | nil => exact ⟨g, handed, rfl, rfl, inv⟩
  | cons event events ih =>
      rw [List.foldlM_cons]
      cases event with
      | construct =>
          obtain ⟨g', handed', hRun, hLength, inv'⟩ := ih inv
          refine ⟨g', handed', ?_, ?_, inv'⟩
          · rw [step, inv.construct_eq]
            exact hRun
          · rw [hLength, List.count_cons_of_ne (by decide)]
      | call =>
          obtain ⟨g₁, h, hStep, inv₁⟩ := inv.call hL
          obtain ⟨g', handed', hRun, hLength, inv'⟩ := ih inv₁
          refine ⟨g', handed', ?_, ?_, inv'⟩
          · rw [hStep]
            exact hRun
          · rw [hLength, List.length_append, List.count_cons_self]
            exact Nat.add_right_comm _ _ _

/-- However many generators are made and however often they are called, each
call writes a string of its own into the arena. All pointers are still good
after them exactly if the arena has not outgrown the storage reserved at first. -/
theorem fph_generator_keeps_iff (hL : 0 < L) (events : List Event) :
    ∃ g handed, Fph.run alloc L (.construct :: events) = .ok (g, handed) ∧
      handed.length = events.count .call ∧
      (∀ k h, handed[k]? = some h → h.pointer.offset = k * L ∧
        h.pointer.offset + L ≤ g.memoryArena.data.size ∧ IsCString L h.text) ∧
      (handed.Pairwise fun h h' => h.pointer.offset + L ≤ h'.pointer.offset) ∧
      ((∀ h ∈ handed, h.Lives L g.memoryArena) ↔ ∀ k, room k < events.count .call →
        room (k + 1) * L ≤ alloc.capacityFor 0 (L * 16)) := by
  obtain ⟨g, handed, hRun, hLength, inv⟩ :=
    (show Invariant alloc L _ [] from invariant_construct hL).run hL events
  rw [List.length_nil, Nat.zero_add] at hLength
  refine ⟨g, handed, hRun, hLength, fun k h hk => ?_, inv.disjoint, hLength ▸ inv.lives_iff⟩
  obtain ⟨hOffset, hText, -⟩ := inv.strings k h hk
  exact ⟨hOffset, hOffset ▸ inv.room_le hk, hText⟩

end Runs

section Exact

/-- A vector that reserves what it is asked for, and at least doubles. -/
def exactAllocator : Allocator where
  capacityFor size request := max (2 * size) request
  le_capacityFor _ _ := Nat.le_max_right ..

/-- With such a vector the pointers are good up to the sixteenth call. -/
theorem room_fits_iff {L n : Nat} (hL : 0 < L) :
    (∀ k, room k < n → room (k + 1) * L ≤ exactAllocator.capacityFor 0 (L * 16)) ↔ n ≤ 16 := by
  have hReserved : exactAllocator.capacityFor 0 (L * 16) = L * 16 := Nat.max_eq_right (Nat.zero_le _)
  rw [hReserved]
  constructor
  · intro hFits
    by_contra hMore
    have hSecond : 48 * L ≤ L * 16 := hFits 1 (Nat.not_le.mp hMore)
    omega
  · intro hLe k hk
    obtain rfl : k = 0 := by
      by_contra hPos
      have hMono : room 1 ≤ room k := room_mono (Nat.one_le_iff_ne_zero.mpr hPos)
      exact absurd (hk.trans_le hLe) (Nat.not_lt.mpr hMono)
    exact (Nat.mul_comm _ _).le

theorem fph_generator_keeps_iff_cstring :
    ∃ g handed, run exactAllocator 16 (.construct :: [.call, .construct, .call]) =
        .ok (g, handed) ∧ handed.length = 2 ∧
      (∀ k h, handed[k]? = some h → h.pointer.offset = k * 16 ∧
        h.pointer.offset + 16 ≤ g.memoryArena.data.size ∧ IsCString 16 h.text) ∧
      (handed.Pairwise fun h h' => h.pointer.offset + 16 ≤ h'.pointer.offset) ∧
      ((∀ h ∈ handed, h.Lives 16 g.memoryArena) ↔ ∀ k, room k < 2 →
        room (k + 1) * 16 ≤ exactAllocator.capacityFor 0 (16 * 16)) :=
  fph_generator_keeps_iff (by decide) [.call, .construct, .call]

/-- Strings of 16 characters: the seventeenth call moves the arena, and the
first pointer is stale. -/
theorem seventeenth_call_moves :
    ∃ g handed h, run exactAllocator 16 (.construct :: List.replicate 17 .call) =
      .ok (g, handed) ∧ handed.head? = some h ∧ ¬ h.Lives 16 g.memoryArena := by
  have hBlocks : (run exactAllocator 16 (.construct :: List.replicate 17 .call)).toOption.map
      (fun r => (r.2.head?.map (·.pointer.block), r.1.memoryArena.block)) = some (some 1, 2) := by
    decide +kernel
  cases hRun : run exactAllocator 16 (.construct :: List.replicate 17 .call) with
  | error e =>
      rw [hRun] at hBlocks
      cases hBlocks
  | ok r =>
      rw [hRun] at hBlocks
      obtain ⟨hHead, hBlock⟩ := Prod.mk.inj (Option.some.inj hBlocks)
      obtain ⟨h, hFirst, hStale⟩ := Option.map_eq_some_iff.mp hHead
      refine ⟨r.1, r.2, h, rfl, hFirst, fun hLives => ?_⟩
      exact absurd (hStale.symm.trans (hLives.1.trans hBlock)) (by decide)

end Exact

end HashBench.Fph
