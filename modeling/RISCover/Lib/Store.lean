import Mathlib.Logic.Function.Basic

/-!
# A store of mutable objects

References are numbers, given out in order. What is read through a reference changes only when
something is written through that same reference.
-/

structure Store (α : Type) where
  next : Nat
  cell : Nat → α

namespace Store

variable {α : Type}

/-- A new object: its reference and the store that has it. -/
def alloc (s : Store α) (a : α) : Nat × Store α :=
  (s.next, ⟨s.next + 1, Function.update s.cell s.next a⟩)

/-- An object is changed in place. -/
def modify (s : Store α) (r : Nat) (f : α → α) : Store α :=
  { s with cell := Function.update s.cell r (f (s.cell r)) }

@[simp] theorem cell_alloc_self (s : Store α) (a : α) : (s.alloc a).2.cell s.next = a :=
  Function.update_self ..

theorem cell_alloc_of_lt {s : Store α} {r : Nat} (h : r < s.next) (a : α) :
    (s.alloc a).2.cell r = s.cell r :=
  Function.update_of_ne (Nat.ne_of_lt h) ..

@[simp] theorem cell_modify_self (s : Store α) (r : Nat) (f : α → α) :
    (s.modify r f).cell r = f (s.cell r) :=
  Function.update_self ..

theorem cell_modify_of_ne {s : Store α} {r r' : Nat} (h : r' ≠ r) (f : α → α) :
    (s.modify r f).cell r' = s.cell r' :=
  Function.update_of_ne h ..

end Store
