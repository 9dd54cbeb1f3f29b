import HashBench.Library.Buffer
import HashBench.Library.Search

/-! The functions of `string.h` over allocated arrays of characters. A character
is a number, and an access outside of the array is a fault. -/
namespace Memory

open Search

variable {ε : Type} (fault : ε)

section Loop

/-- A counted loop keeps what each of its rounds keeps. -/
theorem foldlM_range {σ : Type*} {f : σ → Nat → Except ε σ} {n : Nat} {s : σ}
    (inv : Nat → σ → Prop) (h : inv 0 s)
    (hStep : ∀ i < n, ∀ s, inv i s → ∃ s', f s i = .ok s' ∧ inv (i + 1) s') :
    ∃ s', (List.range n).foldlM f s = .ok s' ∧ inv n s' := by
  induction n with
  | zero => exact ⟨s, rfl, h⟩
  | succ n ih =>
      obtain ⟨s', hRun, hInv⟩ := ih fun i hi => hStep i (Nat.lt_succ_of_lt hi)
      obtain ⟨s'', hRound, hInv⟩ := hStep n (Nat.lt_succ_self n) s' hInv
      refine ⟨s'', ?_, hInv⟩
      rw [List.range_succ, List.foldlM_append, hRun]
      change (do List.foldlM f (← f s' n) []) = Except.ok s''
      rw [hRound]
      rfl

end Loop

namespace Buffer

def memset (b : Buffer Int) (c : Int) (count : Nat) : Except ε (Buffer Int) :=
  (List.range count).foldlM (fun b p => b.write fault p c) b

def memcpy (b : Buffer Int) (dest : Nat) (src : Buffer Int) (count : Nat) :
    Except ε (Buffer Int) :=
  (List.range count).foldlM (fun b p => do b.write fault (dest + p) (← src.read fault p)) b

/-- The characters are compared as `unsigned char`. -/
def strcmp (b : Buffer Int) : (p q fuel : Nat) → ExceptT ε Option Int
  | _, _, 0 => ExceptT.mk none
  | p, q, fuel + 1 => do
      let c ← ExceptT.mk (some (b.read fault p))
      let d ← ExceptT.mk (some (b.read fault q))
      if c ≠ 0 ∧ c = d then strcmp b (p + 1) (q + 1) fuel else pure (c % 256 - d % 256)

variable {b : Buffer Int}

theorem memset_eq {c : Int} {count : Nat} (h : count ≤ b.size) :
    ∃ b', b.memset fault c count = .ok b' ∧ b'.size = b.size ∧ (∀ p < count, b'.cell p = c) ∧
      ∀ p, count ≤ p → b'.cell p = b.cell p := by
  refine foldlM_range (fun (i : Nat) (b' : Buffer Int) => b'.size = b.size ∧
    (∀ p < i, b'.cell p = c) ∧ ∀ p, i ≤ p → b'.cell p = b.cell p) ?_ ?_
  · exact ⟨rfl, fun p hp => absurd hp (Nat.not_lt_zero p), fun p _ => rfl⟩
  · rintro i hi b' ⟨hSize, hSet, hKept⟩
    refine ⟨b'.set i c, write_of_lt fault (by omega) c, hSize, fun p hp => ?_, fun p hp => ?_⟩
    · rcases Nat.lt_succ_iff_lt_or_eq.mp hp with hLt | rfl
      · rw [set_cell_of_ne hLt.ne, hSet p hLt]
      · rw [set_cell_self]
    · rw [set_cell_of_ne (by omega), hKept p (by omega)]

/-- A copy reads back, and all other characters stay. -/
theorem memcpy_eq {dest count : Nat} {src : Buffer Int} (hSrc : count ≤ src.size)
    (hDest : dest + count ≤ b.size) :
    ∃ b', b.memcpy fault dest src count = .ok b' ∧ b'.size = b.size ∧
      (∀ p < count, b'.cell (dest + p) = src.cell p) ∧
      ∀ q, q < dest ∨ dest + count ≤ q → b'.cell q = b.cell q := by
  refine foldlM_range (fun (i : Nat) (b' : Buffer Int) => b'.size = b.size ∧
    (∀ p < i, b'.cell (dest + p) = src.cell p) ∧
    ∀ q, q < dest ∨ dest + i ≤ q → b'.cell q = b.cell q) ?_ ?_
  · exact ⟨rfl, fun p hp => absurd hp (Nat.not_lt_zero p), fun q _ => rfl⟩
  · rintro i hi b' ⟨hSize, hCopied, hKept⟩
    refine ⟨b'.set (dest + i) (src.cell i), ?_, hSize, fun p hp => ?_, fun q hq => ?_⟩
    · rw [read_of_lt fault (by omega)]
      exact write_of_lt fault (by omega) _
    · rcases Nat.lt_succ_iff_lt_or_eq.mp hp with hLt | rfl
      · rw [set_cell_of_ne (by omega), hCopied p hLt]
      · rw [set_cell_self]
    · rw [set_cell_of_ne (by omega), hKept q (by omega)]

/-- The comparison ends at the first characters that differ, or end the strings. -/
theorem strcmp_returns {p q m : Nat} (hp : p + m < b.size) (hq : q + m < b.size)
    (hSame : ∀ k < m, b.cell (p + k) ≠ 0 ∧ b.cell (p + k) = b.cell (q + k))
    (hStop : ¬ (b.cell (p + m) ≠ 0 ∧ b.cell (p + m) = b.cell (q + m))) :
    ReturnsTo (fun fuel => (strcmp fault b p q fuel).run)
      (.ok (b.cell (p + m) % 256 - b.cell (q + m) % 256)) := by
  induction m generalizing p q with
  | zero =>
      refine .of_succ ?_
      simp only [Nat.add_zero] at hp hq hStop
      simp only [strcmp, read_of_lt fault hp, read_of_lt fault hq]
      refine .andThen (ReturnsTo.pure _) (.andThen (ReturnsTo.pure _) ?_)
      simp only [if_neg hStop]
      exact ReturnsTo.pure _
  | succ m ih =>
      have hHead := hSame 0 (Nat.succ_pos m)
      simp only [Nat.add_zero] at hHead
      have hShift (r : Nat) : r + (m + 1) = r + 1 + m := by omega
      rw [hShift] at hp hq
      rw [hShift, hShift] at hStop ⊢
      refine .of_succ ?_
      simp only [strcmp, read_of_lt fault (show p < b.size by omega),
        read_of_lt fault (show q < b.size by omega)]
      refine .andThen (ReturnsTo.pure _) (.andThen (ReturnsTo.pure _) ?_)
      simp only [if_pos hHead]
      refine ih hp hq (fun k hk => ?_) hStop
      have hTail := hSame (k + 1) (Nat.succ_lt_succ hk)
      rwa [show p + (k + 1) = p + 1 + k by omega, show q + (k + 1) = q + 1 + k by omega] at hTail

end Buffer

end Memory
