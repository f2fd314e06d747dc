import Mathlib.Algebra.Order.Group.Nat
import Mathlib.Algebra.Ring.Nat
import Mathlib.Data.Nat.Count

/-! # Positions in a concatenation

Blocks of given sizes lie one behind the other. A position in front of their end is an offset in one of them,
each offset in a block has one position, and what is counted over the positions is the sum over the blocks.

* **`blockOf`** — the block and the offset in it, by subtracting one size after the other, as a program
  would.
* **`exists_blockOf_iff`, `blockOf_inj`** — the positions in front of the end are exactly those that have
  one, and no two share it.
* **`atBlock`, `count_atBlock`** — a function on the positions that is given block by block, and counting
  its values.
-/

namespace Microkernel

/-- The number of the block that a position lies in, and the offset there. -/
def blockOf : List ℕ → ℕ → Option (ℕ × ℕ)
  | [], _ => none
  | s :: ss, n => if n < s then some (0, n) else (blockOf ss (n - s)).map fun q => (q.1 + 1, q.2)

/-- What a function of the block and the offset gives at a position, or a default behind the end. -/
def atBlock {κ β : Type*} (size : κ → ℕ) (f : κ → ℕ → β) (d : β) : List κ → ℕ → β
  | [], _ => d
  | x :: xs, n => if n < size x then f x n else atBlock size f d xs (n - size x)

/-- The function is only asked for offsets in a block. -/
theorem atBlock_congr {κ β : Type*} {size : κ → ℕ} {f g : κ → ℕ → β} {d : β} {l : List κ}
    (h : ∀ x ∈ l, ∀ i < size x, f x i = g x i) (n : ℕ) : atBlock size f d l n = atBlock size g d l n := by
  induction l generalizing n with
  | nil => rfl
  | cons x xs ih =>
    rw [List.forall_mem_cons] at h
    rw [atBlock, atBlock, ih h.2]
    split
    · rename_i hlt
      exact h.1 n hlt
    · rfl

/-- Blocks that are described by others. -/
theorem atBlock_map {κ κ' β : Type*} {size : κ' → ℕ} {f : κ' → ℕ → β} {d : β} (v : κ → κ') (l : List κ)
    (n : ℕ) : atBlock size f d (l.map v) n = atBlock (fun x => size (v x)) (fun x => f (v x)) d l n := by
  induction l generalizing n with
  | nil => rfl
  | cons x xs ih => rw [List.map_cons, atBlock, atBlock, ih]

section
variable {ss : List ℕ} {n m k i : ℕ}

/-- The offset lies in the block. -/
theorem lt_of_blockOf (h : blockOf ss n = some (k, i)) : ∃ s, ss[k]? = some s ∧ i < s := by
  induction ss generalizing n k with
  | nil => cases h
  | cons s ss ih =>
    rw [blockOf] at h
    split at h
    · rename_i hlt
      cases h
      exact ⟨s, rfl, hlt⟩
    · obtain ⟨q, hq, heq⟩ := Option.map_eq_some_iff.mp h
      cases heq
      exact ih hq

/-- A position in front of the end lies in a block. -/
theorem exists_blockOf_iff : (∃ k i, blockOf ss n = some (k, i)) ↔ n < ss.sum := by
  induction ss generalizing n with
  | nil => simp [blockOf]
  | cons s ss ih =>
    rw [blockOf, List.sum_cons]
    split
    · rename_i hlt
      exact iff_of_true ⟨0, n, rfl⟩ (by omega)
    · have hiff : (∃ k i, (blockOf ss (n - s)).map (fun q => (q.1 + 1, q.2)) = some (k, i)) ↔
          ∃ k i, blockOf ss (n - s) = some (k, i) := by
        simp only [Option.map_eq_some_iff, Prod.exists, Prod.mk.injEq]
        constructor
        · rintro ⟨-, -, k, i, h, -⟩
          exact ⟨k, i, h⟩
        · rintro ⟨k, i, h⟩
          exact ⟨k + 1, i, k, i, h, rfl, rfl⟩
      rw [hiff, ih]
      omega

/-- Each offset in a block has a position. -/
theorem exists_position {s : ℕ} (hk : ss[k]? = some s) (hi : i < s) :
    ∃ n < ss.sum, blockOf ss n = some (k, i) := by
  induction ss generalizing k with
  | nil => simp at hk
  | cons s' ss ih =>
    cases k with
    | zero =>
      obtain rfl : s' = s := by simpa using hk
      exact ⟨i, by rw [List.sum_cons]; omega, if_pos hi⟩
    | succ k =>
      obtain ⟨n, hn, hblock⟩ := ih (by simpa using hk)
      refine ⟨s' + n, by rw [List.sum_cons]; omega, ?_⟩
      rw [blockOf, if_neg (by omega), Nat.add_sub_cancel_left, hblock]
      rfl

/-- And only one. -/
theorem blockOf_inj (hn : blockOf ss n = some (k, i)) (hm : blockOf ss m = some (k, i)) : n = m := by
  induction ss generalizing n m k with
  | nil => cases hn
  | cons s ss ih =>
    rw [blockOf] at hn hm
    split at hn <;> split at hm
    · cases hn
      cases hm
      rfl
    · cases hn
      obtain ⟨q, -, heq⟩ := Option.map_eq_some_iff.mp hm
      exact absurd (Prod.mk.inj heq).1 (Nat.succ_ne_zero _)
    · cases hm
      obtain ⟨q, -, heq⟩ := Option.map_eq_some_iff.mp hn
      exact absurd (Prod.mk.inj heq).1 (Nat.succ_ne_zero _)
    · obtain ⟨q, hq, heq⟩ := Option.map_eq_some_iff.mp hn
      obtain ⟨q', hq', heq'⟩ := Option.map_eq_some_iff.mp hm
      cases heq
      obtain ⟨hk, hi⟩ := Prod.mk.inj heq'
      have hqq : q' = (q.1, q.2) := Prod.ext (Nat.succ.inj hk) hi
      rw [hqq] at hq'
      have := ih hq hq'
      omega

end

section
variable {κ β : Type*} {size : κ → ℕ} {f : κ → ℕ → β} {d : β} {l : List κ} {n k i : ℕ}

/-- A position inside the list is answered by the element whose block it falls in. -/
theorem atBlock_of_blockOf {x : κ} (h : blockOf (l.map size) n = some (k, i)) (hx : l[k]? = some x) :
    atBlock size f d l n = f x i := by
  induction l generalizing n k with
  | nil => cases h
  | cons y l ih =>
    rw [List.map_cons, blockOf] at h
    rw [atBlock]
    split at h
    · rename_i hlt
      cases h
      obtain rfl : y = x := by simpa using hx
      exact if_pos hlt
    · rename_i hge
      obtain ⟨q, hq, heq⟩ := Option.map_eq_some_iff.mp h
      cases heq
      rw [if_neg hge]
      exact ih hq (by simpa using hx)

/-- A position past every block is answered by the default. -/
theorem atBlock_of_none (h : blockOf (l.map size) n = none) : atBlock size f d l n = d := by
  induction l generalizing n with
  | nil => rfl
  | cons y l ih =>
    rw [List.map_cons, blockOf] at h
    rw [atBlock]
    split at h
    · cases h
    · rename_i hge
      rw [if_neg hge]
      exact ih (Option.map_eq_none_iff.mp h)

/-- **Counting block by block.** -/
theorem count_atBlock (P : β → Prop) [DecidablePred P] (l : List κ) :
    Nat.count (fun n => P (atBlock size f d l n)) (l.map size).sum =
      (l.map fun x => Nat.count (fun i => P (f x i)) (size x)).sum := by
  induction l with
  | nil => rfl
  | cons x l ih =>
    have hfirst : Nat.count (fun n => P (atBlock size f d (x :: l) n)) (size x) =
        Nat.count (fun i => P (f x i)) (size x) := by
      simp only [Nat.count_eq_card_filter_range]
      refine congrArg Finset.card (Finset.filter_congr fun n hn => ?_)
      rw [atBlock, if_pos (Finset.mem_range.mp hn)]
    have hrest : (fun n => P (atBlock size f d (x :: l) (size x + n))) =
        fun n => P (atBlock size f d l n) := by
      funext n
      rw [atBlock, if_neg (by omega), Nat.add_sub_cancel_left]
    simp only [List.map_cons, List.sum_cons]
    rw [Nat.count_add, hfirst]
    simp only [hrest, ih]

end

end Microkernel
