import Mathlib.Data.Finset.Card
import Mathlib.Order.Interval.Finset.Nat

/-! # Finite unions of intervals of natural numbers

A list of half-open intervals, given by their ends: the numbers they cover, and how the sum of their
lengths compares with an interval they lie in or cover.

* **`cover`** — the numbers in one of the intervals.
* **`card_cover_le`, `card_cover`** — there are at most as many of them as the lengths add up to, and
  exactly as many when the intervals are disjoint.
* **`size_le`, `le_size`** — so disjoint intervals within a range are no longer together than it, and
  intervals that cover a range are no shorter.
-/

namespace Microkernel.IntervalCover

/-- The numbers in some interval of the list. -/
def cover : List (ℕ × ℕ) → Finset ℕ
  | [] => ∅
  | r :: l => Finset.Ico r.1 r.2 ∪ cover l

/-- The sum of the lengths. -/
def size : List (ℕ × ℕ) → ℕ
  | [] => 0
  | r :: l => (r.2 - r.1) + size l

variable {l : List (ℕ × ℕ)} {a b x : ℕ}

/-- A point is covered exactly when one of the ranges contains it. -/
theorem mem_cover : x ∈ cover l ↔ ∃ r ∈ l, r.1 ≤ x ∧ x < r.2 := by
  induction l with
  | nil => simp [cover]
  | cons r l ih => simp [cover, ih]

/-- The intervals cover at most as many numbers as their lengths add up to. -/
theorem card_cover_le (l : List (ℕ × ℕ)) : (cover l).card ≤ size l := by
  induction l with
  | nil => simp [cover, size]
  | cons r l ih =>
    calc (cover (r :: l)).card
        ≤ (Finset.Ico r.1 r.2).card + (cover l).card := Finset.card_union_le ..
      _ ≤ (r.2 - r.1) + size l := Nat.add_le_add (Nat.card_Ico ..).le ih
      _ = size (r :: l) := by simp [size]

/-- Disjoint intervals cover exactly as many. -/
theorem card_cover (h : l.Pairwise fun r r' => r.2 ≤ r'.1 ∨ r'.2 ≤ r.1) : (cover l).card = size l := by
  induction l with
  | nil => simp [cover, size]
  | cons r l ih =>
    rw [List.pairwise_cons] at h
    have hdis : Disjoint (Finset.Ico r.1 r.2) (cover l) := by
      rw [Finset.disjoint_left]
      intro y hy hyl
      obtain ⟨r', hr', hy'⟩ := mem_cover.mp hyl
      rw [Finset.mem_Ico] at hy
      have := h.1 r' hr'
      omega
    calc (cover (r :: l)).card
        = (Finset.Ico r.1 r.2).card + (cover l).card := Finset.card_union_of_disjoint hdis
      _ = (r.2 - r.1) + size l := by rw [Nat.card_Ico, ih h.2]
      _ = size (r :: l) := by simp [size]

/-- Disjoint intervals within `[a, b)` are no longer than it. -/
theorem size_le (h : l.Pairwise fun r r' => r.2 ≤ r'.1 ∨ r'.2 ≤ r.1)
    (hin : ∀ r ∈ l, a ≤ r.1 ∧ r.2 ≤ b) : size l ≤ b - a := by
  rw [← card_cover h, ← Nat.card_Ico]
  apply Finset.card_le_card
  intro y hy
  obtain ⟨r, hr, hyr⟩ := mem_cover.mp hy
  have := hin r hr
  rw [Finset.mem_Ico]
  omega

/-- Intervals that cover `[a, b)` are at least as long. -/
theorem le_size (h : ∀ y, a ≤ y → y < b → ∃ r ∈ l, r.1 ≤ y ∧ y < r.2) : b - a ≤ size l := by
  refine le_trans ?_ (card_cover_le l)
  rw [← Nat.card_Ico]
  apply Finset.card_le_card
  intro y hy
  rw [Finset.mem_Ico] at hy
  exact mem_cover.mpr (h y hy.1 hy.2)

end Microkernel.IntervalCover
