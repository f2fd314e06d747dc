import Mathlib.Data.BitVec
import Mathlib.Data.Nat.Count
import Mathlib.Logic.Function.Basic

/-! # Bitmaps

A bitmap stored in words of `w` bits: bit `i` is bit `i % w` of word `i / w`. Setting and clearing one
bit, and how many bits below a bound satisfy a condition when one bit changes.

* **`test_set`, `test_clear`** — one bit is written, and every other bit keeps its value.
* **`word_eq_zero_iff`, `word_eq_allOnes_iff`** — what a search may conclude from a whole word at a time.
* **`count_flip`** — when the condition changes at one number below the bound, the count changes by one:
  the counter beside a bitmap stays right.
-/

namespace Microkernel

open Function (update)

/-- A bitmap in words of `w` bits. -/
abbrev Bitmap (w : ℕ) := ℕ → BitVec w

namespace Bitmap

variable {w : ℕ}

/-- Bit `i`. -/
def test (b : Bitmap w) (i : ℕ) : Bool := (b (i / w)).getLsbD (i % w)

/-- Set bit `i`. -/
def set (b : Bitmap w) (i : ℕ) : Bitmap w :=
  update b (i / w) (b (i / w) ||| 1#w <<< (i % w))

/-- Clear bit `i`. -/
def clear (b : Bitmap w) (i : ℕ) : Bitmap w :=
  update b (i / w) (b (i / w) &&& ~~~ (1#w <<< (i % w)))

/-- The one-bit mask. -/
theorem getLsbD_mask {k j : ℕ} (hk : k < w) : (1#w <<< k).getLsbD j = decide (j = k) := by
  rw [BitVec.getLsbD_shiftLeft, BitVec.getLsbD_one]
  rcases lt_trichotomy j k with h | rfl | h
  · simp [h, h.ne]
  · have hw : 0 < w := by omega
    simp [hk, hw]
  · have h₁ : ¬ j < k := by omega
    have h₂ : j - k ≠ 0 := by omega
    simp [h₁, h₂, h.ne']

/-- Testing a bit with its mask. -/
theorem and_mask_ne_zero {x : BitVec w} {k : ℕ} (hk : k < w) :
    x &&& (1#w <<< k) ≠ 0#w ↔ x.getLsbD k = true := by
  constructor
  · intro h
    by_contra hbit
    refine h (BitVec.eq_of_getLsbD_eq fun i _ => ?_)
    rw [BitVec.getLsbD_and, getLsbD_mask hk, BitVec.getLsbD_zero]
    by_cases hik : i = k
    · subst hik
      simpa using hbit
    · simp [hik]
  · intro hbit h
    have := congrArg (fun y : BitVec w => y.getLsbD k) h
    simp [getLsbD_mask hk, hbit] at this

/-- Two bits are the same when they are the same bit of the same word. -/
theorem index_eq_iff {i j : ℕ} : i / w = j / w ∧ i % w = j % w ↔ i = j := by
  constructor
  · rintro ⟨hdiv, hmod⟩
    rw [← Nat.div_add_mod i w, ← Nat.div_add_mod j w, hdiv, hmod]
  · rintro rfl
    exact ⟨rfl, rfl⟩

/-- Setting bit `i` answers `true` at `i` and leaves every other bit as it was. -/
theorem test_set (hw : 0 < w) (b : Bitmap w) (i j : ℕ) :
    (b.set i).test j = (b.test j || decide (j = i)) := by
  unfold test set
  by_cases hword : j / w = i / w
  · rw [hword, Function.update_self, BitVec.getLsbD_or, getLsbD_mask (Nat.mod_lt _ hw)]
    congr 2
    simp only [← index_eq_iff (w := w) (i := j), hword, true_and]
  · rw [Function.update_of_ne hword]
    have hne : j ≠ i := fun h => hword (by rw [h])
    simp [hne]

/-- Clearing bit `i` answers `false` at `i` and leaves every other bit as it was. -/
theorem test_clear (hw : 0 < w) (b : Bitmap w) (i j : ℕ) :
    (b.clear i).test j = (b.test j && !decide (j = i)) := by
  unfold test clear
  by_cases hword : j / w = i / w
  · have hlt : j % w < w := Nat.mod_lt _ hw
    rw [hword, Function.update_self, BitVec.getLsbD_and, BitVec.getLsbD_not,
      getLsbD_mask (Nat.mod_lt _ hw)]
    simp only [hlt, decide_true, Bool.true_and]
    congr 3
    simp only [← index_eq_iff (w := w) (i := j), hword, true_and]
  · rw [Function.update_of_ne hword]
    have hne : j ≠ i := fun h => hword (by rw [h])
    simp [hne]

/-- The bits of a word. -/
theorem test_word (b : Bitmap w) {k i : ℕ} (hi : i < w) :
    b.test (k * w + i) = (b k).getLsbD i := by
  have hw : 0 < w := by omega
  unfold test
  rw [Nat.mul_comm, Nat.mul_add_div hw, Nat.div_eq_of_lt hi, Nat.mul_add_mod, Nat.mod_eq_of_lt hi,
    Nat.add_zero]

/-- A word is zero exactly when its bits are. -/
theorem word_eq_zero_iff (b : Bitmap w) (k : ℕ) :
    b k = 0#w ↔ ∀ i < w, b.test (k * w + i) = false := by
  constructor
  · intro h i hi
    rw [test_word b hi, h, BitVec.getLsbD_zero]
  · intro h
    refine BitVec.eq_of_getLsbD_eq fun i hi => ?_
    rw [← test_word b hi, h i hi, BitVec.getLsbD_zero]

/-- A word has all its bits set exactly when each is. -/
theorem word_eq_allOnes_iff (b : Bitmap w) (k : ℕ) :
    b k = BitVec.allOnes w ↔ ∀ i < w, b.test (k * w + i) = true := by
  constructor
  · intro h i hi
    rw [test_word b hi, h, BitVec.getLsbD_allOnes]
    simpa using hi
  · intro h
    refine BitVec.eq_of_getLsbD_eq fun i hi => ?_
    rw [← test_word b hi, h i hi, BitVec.getLsbD_allOnes]
    simpa using hi

/-! ### Counting -/

/-- Among the numbers below `n`, making one more satisfy the condition adds one to the count. -/
theorem count_flip {p q : ℕ → Prop} [DecidablePred p] [DecidablePred q] {n i : ℕ} (hi : i < n)
    (hp : ¬ p i) (hq : q i) (h : ∀ j, j ≠ i → (p j ↔ q j)) :
    Nat.count q n = Nat.count p n + 1 := by
  have hinsert : (Finset.range n).filter q = insert i ((Finset.range n).filter p) := by
    ext j
    by_cases hj : j = i
    · subst hj
      simp [hi, hq]
    · simp [hj, h j hj]
  rw [Nat.count_eq_card_filter_range, Nat.count_eq_card_filter_range, hinsert,
    Finset.card_insert_of_notMem (by simp [hp])]

/-- The count is positive exactly when some number below the bound satisfies the condition. -/
theorem count_pos_iff {p : ℕ → Prop} [DecidablePred p] {n : ℕ} :
    0 < Nat.count p n ↔ ∃ i < n, p i := by
  rw [Nat.count_eq_card_filter_range, Finset.card_pos]
  simp [Finset.Nonempty]

end Bitmap

end Microkernel
