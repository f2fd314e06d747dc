import Mathlib.Tactic.Common

/-! # Terminated strings in memory

A memory with cells `0, 1, …`, the lists that lie in it, and strings that end at the first cell with a
terminator.

* **`Reads`** — the cells from one on read as a list.
* **`StringAt`** — a list without the terminator, and the terminator behind it: what code that walks a
  string up to its end can know of the memory.
* **`stringAt_append`** — a string splits into cells that are read and a string behind them, which is how
  a loop along it goes on.
-/

namespace Microkernel

variable {α : Type*} {mem mem' : ℕ → α} {t x : α} {p i : ℕ} {l l' s : List α}

/-- A list lies in memory from a position on. -/
def Reads (mem : ℕ → α) : ℕ → List α → Prop
  | _, [] => True
  | p, x :: l => mem p = x ∧ Reads mem (p + 1) l

@[simp] theorem reads_nil : Reads mem p [] := trivial

/-- Reading a list reads its head first and the tail one address further. -/
@[simp] theorem reads_cons : Reads mem p (x :: l) ↔ mem p = x ∧ Reads mem (p + 1) l := Iff.rfl

/-- What follows a list lies behind it. -/
theorem reads_append : Reads mem p (l ++ l') ↔ Reads mem p l ∧ Reads mem (p + l.length) l' := by
  induction l generalizing p with
  | nil => simp
  | cons x l ih =>
    rw [List.cons_append, reads_cons, reads_cons, ih, and_assoc, List.length_cons, Nat.add_assoc,
      Nat.add_comm 1]

/-- The list lies there in every memory with the same cells. -/
theorem Reads.congr (h : Reads mem p l) (heq : ∀ i, p ≤ i → i < p + l.length → mem' i = mem i) :
    Reads mem' p l := by
  induction l generalizing p with
  | nil => trivial
  | cons x l ih =>
    rw [List.length_cons] at heq
    refine ⟨(heq p (Nat.le_refl p) (by omega)).trans h.1, ih h.2 fun i hi hlt => heq i (by omega) (by omega)⟩

/-- The string at a position: the cells up to the first terminator. -/
def StringAt (t : α) (mem : ℕ → α) (p : ℕ) (s : List α) : Prop := Reads mem p (s ++ [t]) ∧ t ∉ s

/-- The empty string is a terminator alone. -/
@[simp] theorem stringAt_nil : StringAt t mem p [] ↔ mem p = t := by simp [StringAt]

/-- A string with a first character is that character, not the terminator, before the rest. -/
@[simp] theorem stringAt_cons :
    StringAt t mem p (x :: s) ↔ mem p = x ∧ x ≠ t ∧ StringAt t mem (p + 1) s := by
  unfold StringAt
  rw [List.cons_append, reads_cons, List.mem_cons, not_or, ne_comm]
  tauto

/-- A string splits into characters that are read and the string behind them. -/
theorem stringAt_append :
    StringAt t mem p (l ++ s) ↔ Reads mem p l ∧ t ∉ l ∧ StringAt t mem (p + l.length) s := by
  unfold StringAt
  rw [List.append_assoc, reads_append, List.mem_append, not_or]
  tauto

/-- The cell at the position. -/
theorem StringAt.head (h : StringAt t mem p s) : mem p = s.headD t := by
  cases s with
  | nil => exact stringAt_nil.mp h
  | cons x s => exact (stringAt_cons.mp h).1

end Microkernel
