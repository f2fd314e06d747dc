import Mathlib.Algebra.Ring.Nat
import Mathlib.Data.List.Basic
import Mathlib.Data.List.Nodup
import Mathlib.Logic.Function.Basic

/-! # Singly linked lists

Lists that are stored as a head pointer and a `next` pointer per node, ended by a null pointer. What
pushing a node in front and taking a node out do to the list, and what a loop along the list computes.

* **`Linked`** — the list that a memory holds from a head on. It is determined by the memory, and a write
  to another node does not change it (`Linked.congr`).
* **`Linked.push`, `Linked.unlink`** — the two edits.
* **`walkList`** — a loop along `next` with an accumulator, equal to a fold over the list
  (`Linked.walkList_eq`).
-/

namespace Microkernel

open Function (update)

variable {α β : Type*} {next next' : α → α} {nil h : α} {l l₁ l₂ : List α} {a : α}

/-- The nodes `l` are what one reaches from `h` along `next` before the null pointer `nil`. -/
def Linked (next : α → α) (nil : α) : α → List α → Prop
  | h, [] => h = nil
  | h, a :: l => h = a ∧ a ≠ nil ∧ Linked next nil (next a) l

/-- Only the `next` pointers of the nodes matter. -/
theorem Linked.congr (hl : Linked next nil h l) (hn : ∀ a ∈ l, next' a = next a) :
    Linked next' nil h l := by
  induction l generalizing h with
  | nil => exact hl
  | cons a l ih =>
      obtain ⟨rfl, ha, hl⟩ := hl
      refine ⟨rfl, ha, ?_⟩
      rw [hn h (by simp)]
      exact ih hl fun b hb => hn b (by simp [hb])

/-- The head is null exactly for the empty list. -/
theorem Linked.eq_nil_iff (hl : Linked next nil h l) : h = nil ↔ l = [] := by
  cases l with
  | nil => exact ⟨fun _ => rfl, fun _ => hl⟩
  | cons a l =>
    obtain ⟨rfl, ha, -⟩ := hl
    simpa using ha

/-- A head that is not null is the first node. -/
theorem Linked.exists_cons (hl : Linked next nil h l) (hh : h ≠ nil) :
    ∃ l', l = h :: l' ∧ Linked next nil (next h) l' := by
  cases l with
  | nil => exact absurd hl hh
  | cons a l =>
    obtain ⟨rfl, -, hl⟩ := hl
    exact ⟨l, rfl, hl⟩

/-- The null pointer is no node. -/
theorem Linked.ne_nil (hl : Linked next nil h l) : ∀ a ∈ l, a ≠ nil := by
  induction l generalizing h with
  | nil => simp
  | cons a l ih =>
      obtain ⟨rfl, ha, hl⟩ := hl
      intro b hb
      rcases List.mem_cons.mp hb with rfl | hb
      exacts [ha, ih hl b hb]

section Edits
variable [DecidableEq α]

/-- A new node whose `next` is the old head goes in front. -/
theorem Linked.push (hl : Linked next nil h l) (ha : a ≠ nil) (hal : a ∉ l) :
    Linked (update next a h) nil a (a :: l) := by
  refine ⟨rfl, ha, ?_⟩
  rw [Function.update_self]
  refine hl.congr fun b hb => Function.update_of_ne ?_ ..
  rintro rfl
  exact hal hb

/-- A node behind another one comes out when that one's `next` skips it. -/
theorem Linked.unlink {b : α} (hl : Linked next nil h (l₁ ++ b :: a :: l₂))
    (hnd : (l₁ ++ b :: a :: l₂).Nodup) :
    Linked (update next b (next a)) nil h (l₁ ++ b :: l₂) := by
  induction l₁ generalizing h with
  | nil =>
      obtain ⟨rfl, hb, -, -, hl⟩ := hl
      refine ⟨rfl, hb, ?_⟩
      rw [Function.update_self]
      refine hl.congr fun c hc => Function.update_of_ne ?_ ..
      rintro rfl
      simp at hnd
      grind
  | cons c l₁ ih =>
      obtain ⟨rfl, hc, hl⟩ := hl
      have hcb : h ≠ b := by
        rintro rfl
        simp at hnd
      refine ⟨rfl, hc, ?_⟩
      rw [Function.update_of_ne hcb]
      exact ih hl (List.nodup_cons.mp hnd).2

end Edits

/-! ### Loops along a list -/

/-- A loop that updates `b` with each node until the null pointer. The failing test counts as one round;
`none` says that the loop has not ended after `n` rounds. -/
def walkList [DecidableEq α] (next : α → α) (nil : α) (f : β → α → β) : ℕ → β → α → Option β
  | 0, _, _ => none
  | n + 1, b, h => if h = nil then some b else walkList next nil f n (f b h) (next h)

/-- The loop ends after the last node. -/
theorem Linked.walkList_eq [DecidableEq α] (hl : Linked next nil h l) {n : ℕ} (hn : l.length < n) (f : β → α → β)
    (b : β) : walkList next nil f n b h = some (l.foldl f b) := by
  induction l generalizing h n b with
  | nil =>
      obtain ⟨n, rfl⟩ : ∃ n', n = n' + 1 := ⟨n - 1, by omega⟩
      have hh : h = nil := hl
      rw [walkList, if_pos hh, List.foldl_nil]
  | cons a l ih =>
      obtain ⟨rfl, ha, hl⟩ := hl
      rw [List.length_cons] at hn
      obtain ⟨n, rfl⟩ : ∃ n', n = n' + 1 := ⟨n - 1, by omega⟩
      rw [walkList, if_neg ha, ih hl (by omega), List.foldl_cons]

/-- A counter of a loop: when each node adds to a word, the loop adds the sum, up to wrap-around. -/
theorem foldl_counter {w : ℕ} {π : β → BitVec w} {f : β → α → β} {g : α → ℕ}
    (hf : ∀ b, ∀ a ∈ l, π (f b a) = π b + BitVec.ofNat w (g a)) (b : β) :
    π (l.foldl f b) = π b + BitVec.ofNat w (l.map g).sum := by
  induction l generalizing b with
  | nil => simp
  | cons a l ih =>
      rw [List.foldl_cons, ih fun b c hc => hf b c (List.mem_cons_of_mem a hc),
        hf b a List.mem_cons_self, List.map_cons, List.sum_cons, BitVec.ofNat_add, BitVec.add_assoc]

end Microkernel
