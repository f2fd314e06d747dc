import Mathlib.Tactic.Common

/-! # Words

The maximal runs without a separator in a list, in order.

What a tokenizer cuts a line into: separators in front, between and behind do not count, and an empty line
has no words.

* **`words`** — by recursion on the list, with the word that is being read as it is met.
* **`words_cons_sep`, `words_append_of_sep`, `words_append_cons`** — how a separator, a run of separators,
  and a word with a separator behind it come off the front of a list.
* **`words_eq_singleton`** — a list without separators is one word.
-/

namespace Microkernel

variable {α : Type*} {sep : α → Bool} {a : α} {l s w : List α}

/-- The words of a list: what lies between separators and is not empty. -/
def words (sep : α → Bool) (l : List α) : List (List α) := (l.splitOnP sep).filter (! ·.isEmpty)

/-- A separator in front is skipped. -/
theorem words_cons_sep (ha : sep a = true) : words sep (a :: l) = words sep l := by
  unfold words
  rw [List.splitOnP_cons_eq_if_modifyHead, if_pos ha]
  rfl

/-- Separators in front are skipped. -/
theorem words_append_of_sep (hs : ∀ a ∈ s, sep a = true) : words sep (s ++ l) = words sep l := by
  induction s with
  | nil => rfl
  | cons a s ih =>
    obtain ⟨ha, hs⟩ := List.forall_mem_cons.mp hs
    rw [List.cons_append, words_cons_sep ha, ih hs]

/-- A word that a separator ends. -/
theorem words_append_cons (hw : ∀ a ∈ w, sep a = false) (hne : w ≠ []) (ha : sep a = true) :
    words sep (w ++ a :: l) = w :: words sep l := by
  unfold words
  rw [List.splitOnP_append_cons_of_forall_mem hw a ha, List.filter_cons_of_pos (by simpa using hne)]

/-- A word that the end of the list ends. -/
theorem words_eq_singleton (hw : ∀ a ∈ w, sep a = false) (hne : w ≠ []) : words sep w = [w] := by
  unfold words
  rw [List.splitOnP_eq_singleton hw, List.filter_cons_of_pos (by simpa using hne), List.filter_nil]

end Microkernel
