import Mathlib.Data.List.Basic
import Mathlib.Logic.Function.Basic

/-! # Circular buffers

The cells of a buffer of `cap` cells that are in use, from a first one on and round the end. Adding behind
the last one in use and taking the first one away act on their contents as on a queue.

* **`contents`** — the items from the first cell on, `n` of them, taken round the end.
* **`contents_push`, `contents_pop`** — writing the cell behind the last item appends it, and moving the
  first index on drops the first item.

The buffer has one cell more than it can hold items, so that an empty one and a full one differ in their
indices.
-/

namespace Microkernel.CircularBuffer

open Function (update)

variable {α : Type*} {cap first n i : ℕ} {cells : ℕ → α}

/-- The contents of the `n` cells from `first` on. -/
def contents (cap : ℕ) (cells : ℕ → α) (first n : ℕ) : List α :=
  (List.range n).map fun i => cells ((first + i) % cap)

/-- The contents are as long as the number of items recorded. -/
@[simp] theorem length_contents : (contents cap cells first n).length = n := by simp [contents]

/-- Less than a round apart, two cells are different. -/
theorem cell_ne (hi : i < n) (hn : n < cap) : (first + i) % cap ≠ (first + n) % cap := by
  intro heq
  have hdvd : cap ∣ first + n - (first + i) :=
    Nat.dvd_of_mod_eq_zero (Nat.sub_mod_eq_zero_of_mod_eq heq.symm)
  have hzero := Nat.eq_zero_of_dvd_of_lt hdvd (by omega)
  omega

/-- A cell behind those in use takes the new last element. -/
theorem contents_push (hn : n < cap) (a : α) :
    contents cap (update cells ((first + n) % cap) a) first (n + 1) =
      contents cap cells first n ++ [a] := by
  unfold contents
  rw [List.range_succ, List.map_append, List.map_singleton, Function.update_self]
  congr 1
  apply List.map_congr_left
  intro i hi
  exact Function.update_of_ne (cell_ne (List.mem_range.mp hi) hn) ..

/-- The first cell holds the first element, and the others follow. -/
theorem contents_pop (hfirst : first < cap) :
    contents cap cells first (n + 1) = cells first :: contents cap cells ((first + 1) % cap) n := by
  unfold contents
  rw [List.range_succ_eq_map, List.map_cons, List.map_map, Nat.add_zero, Nat.mod_eq_of_lt hfirst]
  congr 1
  apply List.map_congr_left
  intro i _
  show cells ((first + (i + 1)) % cap) = cells (((first + 1) % cap + i) % cap)
  rw [Nat.mod_add_mod, Nat.add_right_comm, Nat.add_assoc]

end Microkernel.CircularBuffer
