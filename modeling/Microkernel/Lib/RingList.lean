import Mathlib.Data.List.Chain
import Mathlib.Data.List.Nodup
import Mathlib.Logic.Function.Basic

/-! # Circular lists

Circular doubly linked lists around a head node, as intrusive list code keeps them: from the head along
`next` through the nodes and back to the head, and the same way back along `prev`. What inserting a
node in front of the head and taking a node out do to the list.

* **`LinkedBothWays`, `Ring`** — a stretch of such a list, and the whole ring.
* **`Ring.addTail`, `Ring.del`** — inserting in front of the head, which makes the node the last one, and
  taking a node out from between its neighbours.
* **`Ring.congr`** — a ring is determined by the links of its own nodes.
-/

namespace Microkernel

open Function (update)

variable {α : Type*} {next prev next' prev' : α → α} {head a : α} {l l' l₁ l₂ : List α}

/-- Each node is linked both ways with the one behind it. -/
def LinkedBothWays (next prev : α → α) : List α → Prop :=
  List.IsChain fun a b => next a = b ∧ prev b = a

/-- The circular list around `head` has the nodes `l`. -/
structure Ring (next prev : α → α) (head : α) (l : List α) : Prop where
  nodup : (head :: l).Nodup
  linked : LinkedBothWays next prev (head :: (l ++ [head]))

/-- Only the `next` pointers of all nodes but the last and the `prev` pointers of all but the first
matter. -/
theorem LinkedBothWays.congr (h : LinkedBothWays next prev l)
    (hn : ∀ a ∈ l.dropLast, next' a = next a) (hp : ∀ a ∈ l.tail, prev' a = prev a) :
    LinkedBothWays next' prev' l := by
  induction l with
  | nil => exact .nil
  | cons a l ih =>
    cases l with
    | nil => exact .singleton a
    | cons b l =>
      obtain ⟨hab, hl⟩ := List.isChain_cons_cons.mp h
      refine List.isChain_cons_cons.mpr ⟨?_, ih hl ?_ ?_⟩
      · rw [hn a (by simp), hp b (by simp)]
        exact hab
      · exact fun c hc => hn c (by simp [hc])
      · exact fun c hc => hp c (by simp at hc ⊢; exact .inr hc)

/-- Only the pointers of the nodes and of the head matter. -/
theorem Ring.congr (h : Ring next prev head l)
    (heq : ∀ a ∈ head :: l, next' a = next a ∧ prev' a = prev a) : Ring next' prev' head l := by
  refine ⟨h.nodup, h.linked.congr (fun a ha => (heq a ?_).1) (fun a ha => (heq a ?_).2)⟩
  · rw [← List.cons_append, List.dropLast_concat] at ha
    exact ha
  · simp at ha ⊢
    exact ha.symm

/-- The list is what one reads off the pointers. -/
theorem Ring.eq (h : Ring next prev head l) (h' : Ring next prev head l') : l = l' := by
  -- from a common node on, until the head comes back
  have hwalk : ∀ (l l' : List α) (a : α), head ∉ l → head ∉ l' →
      LinkedBothWays next prev (a :: (l ++ [head])) →
      LinkedBothWays next prev (a :: (l' ++ [head])) → l = l' := by
    intro l
    induction l with
    | nil =>
      intro l' a _ hl' h h'
      cases l' with
      | nil => rfl
      | cons b l' =>
        have hb := (List.isChain_cons_cons.mp h).1.1
        have hb' := (List.isChain_cons_cons.mp h').1.1
        rw [← hb, hb'] at hl'
        simp at hl'
    | cons b l ih =>
      intro l' a hl hl' h h'
      obtain ⟨hb, h⟩ := List.isChain_cons_cons.mp h
      cases l' with
      | nil =>
        have hb' := (List.isChain_cons_cons.mp h').1.1
        rw [← hb', hb.1] at hl
        simp at hl
      | cons c l' =>
        obtain ⟨hc, h'⟩ := List.isChain_cons_cons.mp h'
        obtain rfl : b = c := by rw [← hb.1, hc.1]
        rw [ih l' b (fun hm => hl (by simp [hm])) (fun hm => hl' (by simp [hm])) h h']
  exact hwalk l l' head (List.nodup_cons.mp h.nodup).1 (List.nodup_cons.mp h'.nodup).1 h.linked h'.linked

/-- A head alone points to itself. -/
theorem ring_nil (hn : next head = head) (hp : prev head = head) : Ring next prev head [] :=
  ⟨by simp, .cons_cons ⟨hn, hp⟩ (.singleton head)⟩

/-- The first node behind the head. -/
theorem Ring.next_head (h : Ring next prev head (a :: l)) : next head = a :=
  (List.isChain_cons_cons.mp h.linked).1.1

/-- The head of an empty ring points at itself. -/
theorem Ring.next_head_nil (h : Ring next prev head []) : next head = head :=
  (List.isChain_cons_cons.mp h.linked).1.1

/-- The node in front of the head is a node of the list or the head itself. -/
theorem Ring.prev_head_mem (h : Ring next prev head l) : prev head ∈ head :: l := by
  obtain ⟨A, x, hA⟩ : ∃ A x, head :: l = A ++ [x] :=
    ⟨_, _, (List.dropLast_append_getLast (List.cons_ne_nil head l)).symm⟩
  have hlinked := h.linked
  rw [← List.cons_append, hA, List.append_assoc] at hlinked
  have hlast := (List.isChain_append_cons_cons.mp hlinked).2.1
  rw [hA, hlast.2]
  simp

/-- The neighbours of a node are other nodes of the list or the head. -/
theorem Ring.neighbours (h : Ring next prev head (l₁ ++ a :: l₂)) :
    next a ∈ head :: (l₁ ++ l₂) ∧ prev a ∈ head :: (l₁ ++ l₂) ∧ a ∉ head :: (l₁ ++ l₂) := by
  obtain ⟨A, x, hA⟩ : ∃ A x, head :: l₁ = A ++ [x] :=
    ⟨_, _, (List.dropLast_append_getLast (List.cons_ne_nil head l₁)).symm⟩
  obtain ⟨y, B, hB⟩ : ∃ y B, l₂ ++ [head] = y :: B := by
    cases l₂ with
    | nil => exact ⟨head, [], rfl⟩
    | cons y l₂ => exact ⟨y, l₂ ++ [head], rfl⟩
  have hlinked := h.linked
  rw [List.append_assoc, List.cons_append, ← List.cons_append, hA, hB, List.append_assoc] at hlinked
  obtain ⟨-, ⟨-, hax⟩, hrest⟩ := List.isChain_append_cons_cons.mp hlinked
  have hay := (List.isChain_cons_cons.mp hrest).1.1
  have hx : x ∈ head :: l₁ := by rw [hA]; simp
  have hy : y ∈ l₂ ++ [head] := by rw [hB]; simp
  have hnd := h.nodup
  rw [hax, hay]
  refine ⟨?_, ?_, ?_⟩ <;> grind

section Edits
variable [DecidableEq α]

/-- **Inserting** a node in front of the head makes it the last node. -/
theorem Ring.addTail (h : Ring next prev head l) (ha : a ∉ head :: l) :
    Ring (update (update next a head) (prev head) a) (update (update prev a (prev head)) head a) head
      (l ++ [a]) := by
  -- `x` is the last node, the head itself when the list is empty; only its two links change
  obtain ⟨A, x, hA⟩ : ∃ A x, head :: l = A ++ [x] :=
    ⟨_, _, (List.dropLast_append_getLast (List.cons_ne_nil head l)).symm⟩
  have hnd := h.nodup
  have hlinked := h.linked
  rw [← List.cons_append, hA, List.append_assoc] at hlinked
  obtain ⟨hfirst, ⟨-, hx⟩, -⟩ := List.isChain_append_cons_cons.mp hlinked
  have hax : a ≠ x := by
    rintro rfl
    exact ha (by rw [hA]; simp)
  have hah : a ≠ head := by
    rintro rfl
    exact ha (by simp)
  have hxA : x ∉ A := by
    rw [hA] at hnd
    exact fun hx => (List.nodup_append.mp hnd).2.2 x hx x (by simp) rfl
  constructor
  · rw [← List.cons_append]
    exact List.nodup_append.mpr ⟨hnd, by simp, fun b hb c hc => by
      rintro rfl
      rw [List.mem_singleton.mp hc] at hb
      exact ha hb⟩
  · rw [hx, ← List.cons_append, ← List.cons_append, hA, List.append_assoc, List.append_assoc]
    refine List.isChain_append_cons_cons.mpr ⟨?_, ?_, ?_⟩
    · refine LinkedBothWays.congr hfirst (fun b hb => ?_) (fun b hb => ?_)
      · rw [List.dropLast_concat] at hb
        have hba : b ≠ a := by
          rintro rfl
          exact ha (by rw [hA]; simp [hb])
        have hbx : b ≠ x := by
          rintro rfl
          exact hxA hb
        rw [Function.update_of_ne hbx, Function.update_of_ne hba]
      · rw [← hA, List.tail_cons] at hb
        have hba : b ≠ a := by
          rintro rfl
          exact ha (by simp [hb])
        have hbh : b ≠ head := by
          rintro rfl
          exact (List.nodup_cons.mp hnd).1 hb
        rw [Function.update_of_ne hbh, Function.update_of_ne hba]
    · rw [Function.update_self, Function.update_of_ne hah, Function.update_self]
      exact ⟨rfl, rfl⟩
    · refine List.isChain_cons_cons.mpr ⟨?_, .singleton head⟩
      rw [Function.update_of_ne hax, Function.update_self, Function.update_self]
      exact ⟨rfl, rfl⟩

/-- **Taking a node out**: its neighbours are linked with each other, and it points to itself. -/
theorem Ring.del (h : Ring next prev head (l₁ ++ a :: l₂)) :
    Ring (update (update next (prev a) (next a)) a a) (update (update prev (next a) (prev a)) a a)
      head (l₁ ++ l₂) := by
  obtain ⟨A, x, hA⟩ : ∃ A x, head :: l₁ = A ++ [x] :=
    ⟨_, _, (List.dropLast_append_getLast (List.cons_ne_nil head l₁)).symm⟩
  obtain ⟨y, B, hB⟩ : ∃ y B, l₂ ++ [head] = y :: B := by
    cases l₂ with
    | nil => exact ⟨head, [], rfl⟩
    | cons y l₂ => exact ⟨y, l₂ ++ [head], rfl⟩
  have hnd := h.nodup
  have hlinked := h.linked
  rw [List.append_assoc, List.cons_append, ← List.cons_append, hA, hB, List.append_assoc] at hlinked
  obtain ⟨hfirst, ⟨hx, hax⟩, hrest⟩ := List.isChain_append_cons_cons.mp hlinked
  obtain ⟨⟨hay, hya⟩, hlast⟩ := List.isChain_cons_cons.mp hrest
  rw [hax, hay]
  have hx_mem : x ∈ head :: l₁ := by rw [hA]; simp
  have hy_mem : y ∈ l₂ ++ [head] := by rw [hB]; simp
  -- no node stands on the list twice
  have hxA : x ∉ A := by
    have : (A ++ [x]).Nodup := by
      rw [← hA]
      exact hnd.sublist (List.sublist_append_left (head :: l₁) _)
    exact fun hx => (List.nodup_append.mp this).2.2 x hx x (by simp) rfl
  have hyB : y ∉ B := by
    have : (y :: B).Nodup := by
      rw [← hB]
      grind
    exact (List.nodup_cons.mp this).1
  have hmem_A : ∀ b ∈ A, b ∈ head :: l₁ := fun b hb => by rw [hA]; simp [hb]
  have hmem_B : ∀ b ∈ B, b ∈ l₂ ++ [head] := fun b hb => by rw [hB]; simp [hb]
  constructor
  · grind
  · rw [List.append_assoc, hB, ← List.cons_append, hA, List.append_assoc]
    refine List.isChain_append_cons_cons.mpr ⟨?_, ?_, ?_⟩
    · refine LinkedBothWays.congr hfirst (fun b hb => ?_) (fun b hb => ?_)
      · rw [List.dropLast_concat] at hb
        rw [Function.update_of_ne (by grind), Function.update_of_ne (by grind)]
      · rw [← hA, List.tail_cons] at hb
        rw [Function.update_of_ne (by grind), Function.update_of_ne (by grind)]
    · rw [Function.update_of_ne (by grind), Function.update_self, Function.update_of_ne (by grind),
        Function.update_self]
      exact ⟨rfl, rfl⟩
    · refine LinkedBothWays.congr hlast (fun b hb => ?_) (fun b hb => ?_)
      · rw [← hB, List.dropLast_concat] at hb
        rw [Function.update_of_ne (by grind), Function.update_of_ne (by grind)]
      · rw [List.tail_cons] at hb
        have := hmem_B b hb
        rw [Function.update_of_ne (by grind), Function.update_of_ne (by grind)]

end Edits

end Microkernel
