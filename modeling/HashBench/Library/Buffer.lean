import Mathlib.Logic.Function.Basic

/-! Allocated arrays. An access is checked against the number of cells, and
one outside of them is a fault. -/
namespace Memory

structure Buffer (S : Type*) where
  size : Nat
  cell : Nat → S

namespace Buffer

variable {S ε : Type*} (b : Buffer S) (fault : ε)

def read (p : Nat) : Except ε S := if p < b.size then .ok (b.cell p) else .error fault

def set (p : Nat) (s : S) : Buffer S := { b with cell := Function.update b.cell p s }

def write (p : Nat) (s : S) : Except ε (Buffer S) :=
  if p < b.size then .ok (b.set p s) else .error fault

/-- `realloc`. What new cells hold is what the function says there. -/
def realloc (size : Nat) : Buffer S := { b with size }

variable {b} {p : Nat}

theorem read_of_lt (h : p < b.size) : b.read fault p = .ok (b.cell p) := if_pos h

theorem read_of_ge (h : b.size ≤ p) : b.read fault p = .error fault := if_neg (Nat.not_lt.mpr h)

theorem write_of_lt (h : p < b.size) (s : S) : b.write fault p s = .ok (b.set p s) := if_pos h

@[simp] theorem set_size (s : S) : (b.set p s).size = b.size := rfl

@[simp] theorem realloc_cell (size : Nat) : (b.realloc size).cell = b.cell := rfl

@[simp] theorem realloc_size (size : Nat) : (b.realloc size).size = size := rfl

@[simp] theorem set_cell_self (s : S) : (b.set p s).cell p = s := Function.update_self ..

theorem set_cell_of_ne {q : Nat} (h : q ≠ p) (s : S) : (b.set p s).cell q = b.cell q :=
  Function.update_of_ne h ..

end Buffer

end Memory
