import Microkernel.Vma.Maple
import Mathlib.Data.List.InsertIdx

/-! # Single nodes of the maple tree

What the operations on one node do when every index they use is in range: to the arrays, and to the list
of entries or children that a node holds.

* **`HasEntries`, `HasChildren`** — a leaf with its entries, and an internal node with its children.
* **`entries_induction`** — the rule for the loops over the entries of a node.
* **`HasEntries.overlaps`, `HasEntries.findAddr`** — what the searches of a leaf come to.
* **`shiftedUp`, `cleared`, `copied`** — the arrays that the shifting, clearing and copying loops make,
  each with the step that one more round adds.
-/

namespace Microkernel.Vma

open Function (update)

@[simp] theorem MapleM.ok_bind {α β : Type} (a : α) (f : α → MapleM β) :
    (Except.ok a >>= f) = f a := rfl

@[simp] theorem MapleM.error_bind {α β : Type} (e : MapleFault) (f : α → MapleM β) :
    (Except.error e >>= f) = Except.error e := rfl

@[simp] theorem MapleM.pure_eq {α : Type} (a : α) : (pure a : MapleM α) = Except.ok a := rfl

/-! ### The arrays of a node -/

section Arrays
variable {room : ℕ} {node : MapleNode}

/-- A key within its array is read. -/
theorem MapleNode.getPivot_ok {i : ℕ} (h : i < room) :
    node.getPivot room i = .ok (node.pivots i) := if_pos h

/-- A key within its array is written. -/
theorem MapleNode.setPivot_ok {i : ℕ} (h : i < room) (v : U32) :
    node.setPivot room i v = .ok { node with pivots := update node.pivots i v } := if_pos h

/-- A slot within its array is read. -/
theorem MapleNode.getSlot_ok {i : ℕ} (h : i < mapleNodeSlots) :
    node.getSlot i = .ok (node.slots i) := if_pos h

/-- A slot within its array is written. -/
theorem MapleNode.setSlot_ok {i : ℕ} (h : i < mapleNodeSlots) (v : Option ℕ) :
    node.setSlot i v = .ok { node with slots := update node.slots i v } := if_pos h

/-- An array whose entries behind `pos`, up to `i`, have moved up by one place. -/
def shiftedUp {α : Type} (f : ℕ → α) (pos i : ℕ) : ℕ → α :=
  fun j => if pos < j ∧ j ≤ i then f (j - 1) else f j

/-- An array whose entries from `i` on, `n` of them, were taken from one place behind. -/
def shiftedDown {α : Type} (f : ℕ → α) (i n : ℕ) : ℕ → α :=
  fun j => if i ≤ j ∧ j < i + n then f (j + 1) else f j

/-- One more entry moves up. -/
theorem shiftedUp_succ {α : Type} (f : ℕ → α) {pos i : ℕ} (h : pos ≤ i) :
    shiftedUp (update f (i + 1) (f i)) pos i = shiftedUp f pos (i + 1) := by
  funext j
  unfold shiftedUp
  by_cases hj : j = i + 1
  · subst hj
    rw [if_neg (by omega), if_pos (by omega), Function.update_self]
    rfl
  · rw [Function.update_of_ne hj]
    by_cases hin : pos < j ∧ j ≤ i
    · rw [if_pos hin, if_pos (by omega), Function.update_of_ne (by omega)]
    · rw [if_neg hin, if_neg (by omega)]

/-- No entry has moved up yet. -/
theorem shiftedUp_self {α : Type} (f : ℕ → α) {pos i : ℕ} (h : i ≤ pos) : shiftedUp f pos i = f := by
  funext j
  exact if_neg (by omega)

/-- One more entry moves down. -/
theorem shiftedDown_succ {α : Type} (f : ℕ → α) (i n : ℕ) :
    shiftedDown (update f i (f (i + 1))) (i + 1) n = shiftedDown f i (n + 1) := by
  funext j
  unfold shiftedDown
  by_cases hj : j = i
  · subst hj
    rw [if_neg (by omega), if_pos (by omega), Function.update_self]
  · rw [Function.update_of_ne hj]
    by_cases hin : i + 1 ≤ j ∧ j < i + 1 + n
    · rw [if_pos hin, if_pos (by omega), Function.update_of_ne (by omega)]
    · rw [if_neg hin, if_neg (by omega)]

/-- An array with `z` in `n` places from `i` on. -/
def cleared {α : Type} (f : ℕ → α) (i n : ℕ) (z : α) : ℕ → α :=
  fun j => if i ≤ j ∧ j < i + n then z else f j

/-- An array with `n` places from `i` on that were copied from another one, `d` places further up. -/
def copied {α : Type} (g f : ℕ → α) (d i n : ℕ) : ℕ → α :=
  fun j => if i ≤ j ∧ j < i + n then f (d + j) else g j

/-- One more place is cleared, from the front. -/
theorem cleared_succ {α : Type} (f : ℕ → α) (i n : ℕ) (z : α) :
    cleared (update f i z) (i + 1) n z = cleared f i (n + 1) z := by
  funext j
  unfold cleared
  by_cases hj : j = i
  · subst hj
    rw [if_neg (by omega), if_pos (by omega), Function.update_self]
  · rw [Function.update_of_ne hj]
    by_cases hin : i + 1 ≤ j ∧ j < i + 1 + n
    · rw [if_pos hin, if_pos (by omega)]
    · rw [if_neg hin, if_neg (by omega)]

/-- No place is cleared yet. -/
theorem cleared_zero {α : Type} (f : ℕ → α) (i : ℕ) (z : α) : cleared f i 0 z = f := by
  funext j
  exact if_neg (by omega)

/-- No place is copied yet. -/
theorem copied_zero {α : Type} (g f : ℕ → α) (d i : ℕ) : copied g f d i 0 = g := by
  funext j
  exact if_neg (by omega)

/-- One more place is copied, and cleared where it comes from. -/
theorem copied_succ {α : Type} (g f : ℕ → α) (d i n : ℕ) (z : α) :
    copied (update g i (f (d + i))) (update f (d + i) z) d (i + 1) n = copied g f d i (n + 1) := by
  funext j
  unfold copied
  by_cases hj : j = i
  · subst hj
    rw [if_neg (by omega), if_pos (by omega), Function.update_self]
  · rw [Function.update_of_ne hj, Function.update_of_ne (by omega)]
    by_cases hin : i + 1 ≤ j ∧ j < i + 1 + n
    · rw [if_pos hin, if_pos (by omega)]
    · rw [if_neg hin, if_neg (by omega)]

/-- The entries behind `pos` move up. -/
theorem leafShiftUp_eq {pos i : ℕ} (hpos : pos ≤ i) (hroom : i < room) (hslots : i < mapleNodeSlots) :
    leafShiftUp room pos i node = .ok { node with
      pivots := shiftedUp node.pivots pos i
      slots := shiftedUp node.slots pos i } := by
  induction i generalizing node with
  | zero =>
    rw [shiftedUp_self node.pivots (Nat.zero_le pos), shiftedUp_self node.slots (Nat.zero_le pos)]
    rfl
  | succ i ih =>
    rw [leafShiftUp]
    by_cases hgt : i + 1 > pos
    · rw [if_pos hgt, MapleNode.getPivot_ok (by omega), MapleM.ok_bind, MapleNode.setPivot_ok hroom,
        MapleM.ok_bind, MapleNode.getSlot_ok (by omega), MapleM.ok_bind, MapleNode.setSlot_ok hslots,
        MapleM.ok_bind, ih (by omega) (by omega) (by omega)]
      dsimp only
      rw [shiftedUp_succ node.pivots (by omega), shiftedUp_succ node.slots (by omega)]
    · rw [if_neg hgt, shiftedUp_self node.pivots (by omega), shiftedUp_self node.slots (by omega)]

/-- An insertion into a leaf with a free key place. -/
theorem leafInsertAt_eq {pos vma : ℕ} {start : U32} (hpos : pos ≤ node.nrEntries.toNat)
    (hroom : node.nrEntries.toNat < room) (hslots : node.nrEntries.toNat < mapleNodeSlots) :
    leafInsertAt room node pos vma start = .ok { node with
      pivots := update (shiftedUp node.pivots pos node.nrEntries.toNat) pos start
      slots := update (shiftedUp node.slots pos node.nrEntries.toNat) pos (some vma)
      nrEntries := node.nrEntries + 1#8 } := by
  rw [leafInsertAt, leafShiftUp_eq hpos hroom hslots, MapleM.ok_bind,
    MapleNode.setPivot_ok (by omega), MapleM.ok_bind, MapleNode.setSlot_ok (by omega)]
  rfl

/-- The entries behind `i` move down. -/
theorem leafShiftDown_eq {n i : ℕ} (hroom : i + n < room) (hslots : i + n < mapleNodeSlots) :
    leafShiftDown room n i node = .ok { node with
      pivots := shiftedDown node.pivots i n
      slots := shiftedDown node.slots i n } := by
  induction n generalizing i node with
  | zero =>
    have hsame : ∀ {α : Type} (f : ℕ → α), shiftedDown f i 0 = f := by
      intro α f
      funext j
      exact if_neg (by omega)
    rw [hsame, hsame]
    rfl
  | succ n ih =>
    rw [leafShiftDown, MapleNode.getPivot_ok (by omega), MapleM.ok_bind,
      MapleNode.setPivot_ok (by omega), MapleM.ok_bind, MapleNode.getSlot_ok (by omega),
      MapleM.ok_bind, MapleNode.setSlot_ok (by omega), MapleM.ok_bind, ih (by omega) (by omega)]
    dsimp only
    rw [shiftedDown_succ, shiftedDown_succ]

/-- The last entry of a node that has one. -/
theorem MapleNode.lastEntry_eq (h : 0 < node.nrEntries.toNat) :
    node.lastEntry = node.nrEntries.toNat - 1 := by
  unfold MapleNode.lastEntry
  bv_omega

/-- A removal from a leaf. -/
theorem leafRemoveAt_eq {pos : ℕ} (hpos : pos < node.nrEntries.toNat)
    (hroom : node.nrEntries.toNat ≤ room) (hslots : node.nrEntries.toNat ≤ mapleNodeSlots) :
    leafRemoveAt room node pos = .ok { node with
      pivots := update (shiftedDown node.pivots pos (node.nrEntries.toNat - 1 - pos))
        (node.nrEntries.toNat - 1) 0#32
      slots := update (shiftedDown node.slots pos (node.nrEntries.toNat - 1 - pos))
        (node.nrEntries.toNat - 1) none
      nrEntries := node.nrEntries - 1#8 } := by
  have hnr : (node.nrEntries - 1#8).toNat = node.nrEntries.toNat - 1 := by bv_omega
  rw [leafRemoveAt, MapleNode.lastEntry_eq (by omega), leafShiftDown_eq (by omega) (by omega),
    MapleM.ok_bind]
  dsimp only
  rw [hnr, MapleNode.setPivot_ok (by omega), MapleM.ok_bind]
  dsimp only
  rw [hnr]
  exact MapleNode.setSlot_ok (by omega) none

/-- The loop of `split_leaf`. -/
theorem splitLeafMove_eq {n i : ℕ} {newNode : MapleNode} (hroom : splitMid + i + n ≤ room)
    (hslots : splitMid + i + n ≤ mapleNodeSlots) :
    splitLeafMove room n i node newNode = .ok
      ({ node with
        pivots := cleared node.pivots (splitMid + i) n 0#32
        slots := cleared node.slots (splitMid + i) n none },
      { newNode with
        pivots := copied newNode.pivots node.pivots splitMid i n
        slots := copied newNode.slots node.slots splitMid i n }) := by
  induction n generalizing i node newNode with
  | zero =>
    rw [cleared_zero, cleared_zero, copied_zero, copied_zero]
    rfl
  | succ n ih =>
    rw [splitLeafMove, MapleNode.getPivot_ok (by omega), MapleM.ok_bind,
      MapleNode.setPivot_ok (by omega), MapleM.ok_bind, MapleNode.getSlot_ok (by omega), MapleM.ok_bind,
      MapleNode.setSlot_ok (by omega), MapleM.ok_bind, MapleNode.setPivot_ok (by omega), MapleM.ok_bind,
      MapleNode.setSlot_ok (by omega), MapleM.ok_bind, ih (by omega) (by omega)]
    dsimp only
    rw [← Nat.add_assoc, cleared_succ, cleared_succ, copied_succ, copied_succ]

/-- The first loop of `split_internal`. -/
theorem splitMovePivots_eq {n i : ℕ} {newNode : MapleNode} (hroom : splitMid + i + n ≤ room) :
    splitMovePivots room n i node newNode = .ok
      ({ node with pivots := cleared node.pivots (splitMid + i) n 0#32 },
      { newNode with pivots := copied newNode.pivots node.pivots splitMid i n }) := by
  induction n generalizing i node newNode with
  | zero =>
    rw [cleared_zero, copied_zero]
    rfl
  | succ n ih =>
    rw [splitMovePivots, MapleNode.getPivot_ok (by omega), MapleM.ok_bind,
      MapleNode.setPivot_ok (by omega), MapleM.ok_bind, MapleNode.setPivot_ok (by omega), MapleM.ok_bind,
      ih (by omega)]
    dsimp only
    rw [← Nat.add_assoc, cleared_succ, copied_succ]

/-- The first loop of `internal_insert_at`. -/
theorem internalShiftPivots_eq {pos i : ℕ} (hpos : pos ≤ i) (hroom : i < room) :
    internalShiftPivots room pos i node = .ok { node with pivots := shiftedUp node.pivots pos i } := by
  induction i generalizing node with
  | zero =>
    rw [shiftedUp_self node.pivots (Nat.zero_le pos)]
    rfl
  | succ i ih =>
    rw [internalShiftPivots]
    by_cases hgt : i + 1 > pos
    · rw [if_pos hgt, MapleNode.getPivot_ok (by omega), MapleM.ok_bind, MapleNode.setPivot_ok hroom,
        MapleM.ok_bind, ih (by omega) (by omega)]
      dsimp only
      rw [shiftedUp_succ node.pivots (by omega)]
    · rw [if_neg hgt, shiftedUp_self node.pivots (by omega)]

/-- The second loop of `internal_insert_at`. -/
theorem internalShiftChildren_eq {pos i : ℕ} (hpos : pos + 1 ≤ i) (hslots : i < mapleNodeSlots) :
    internalShiftChildren pos i node = .ok { node with slots := shiftedUp node.slots (pos + 1) i } := by
  induction i generalizing node with
  | zero => omega
  | succ i ih =>
    rw [internalShiftChildren]
    by_cases hgt : i + 1 > pos + 1
    · rw [if_pos hgt, MapleNode.getSlot_ok (by omega), MapleM.ok_bind, MapleNode.setSlot_ok hslots,
        MapleM.ok_bind, ih (by omega) (by omega)]
      dsimp only
      rw [shiftedUp_succ node.slots (by omega)]
    · rw [if_neg hgt, shiftedUp_self node.slots (by omega)]

end Arrays

/-! ### The list of a node -/

/-- **A leaf with the entries `l`**: keys and areas. -/
structure MapleNode.HasEntries (n : MapleNode) (l : List (U32 × ℕ)) : Prop where
  isLeaf : n.isLeaf = true
  nrEntries : n.nrEntries.toNat = l.length
  length_le : l.length ≤ mapleNodeSlots
  get : ∀ {i e}, l[i]? = some e → n.pivots i = e.1 ∧ n.slots i = some e.2

/-- **An internal node with the children `l`**: nodes, each with the key behind it, which the last one
has not. -/
structure MapleNode.HasChildren (n : MapleNode) (l : List (ℕ × ℕ)) : Prop where
  isLeaf : n.isLeaf = false
  nrEntries : n.nrEntries.toNat = l.length
  length_pos : 0 < l.length
  length_le : l.length ≤ mapleNodeSlots
  child : ∀ {i e}, l[i]? = some e → n.slots i = some e.1
  key : ∀ {i e}, l[i]? = some e → i + 1 < l.length → (n.pivots i).toNat = e.2

theorem mapleNodeSlots_eq : mapleNodeSlots = 10 := rfl

section Leaf
variable {room : ℕ} {n : MapleNode} {l : List (U32 × ℕ)} {s : MapleState}

/-- Entries are within the slots. -/
theorem MapleNode.HasEntries.lt (h : n.HasEntries l) {i : ℕ} {e : U32 × ℕ} (he : l[i]? = some e) :
    i < mapleNodeSlots :=
  lt_of_lt_of_le (List.getElem?_eq_some_iff.mp he).1 h.length_le

/-- **The rule for a loop over the entries**: what it carries from the entries behind an index to the entries
from the index on, it has from the first index on. -/
theorem entries_induction {Q : ℕ → List (U32 × ℕ) → Prop} (hnil : Q l.length [])
    (hcons : ∀ i e l₂, l[i]? = some e → Q (i + 1) l₂ → Q i (e :: l₂)) : Q 0 l := by
  have hfrom : ∀ l₂ l₁, l = l₁ ++ l₂ → Q l₁.length l₂ := by
    intro l₂
    induction l₂ with
    | nil =>
      intro l₁ hl
      rwa [hl, List.append_nil] at hnil
    | cons e l₂ ih =>
      intro l₁ hl
      have hrest := ih (l₁ ++ [e]) (by simp [hl])
      rw [List.length_append, List.length_singleton] at hrest
      exact hcons l₁.length e l₂ (by simp [hl]) hrest
  exact hfrom l [] rfl

/-- The place of a start in a leaf: behind the keys below it. -/
theorem MapleNode.HasEntries.findSlot (h : n.HasEntries l) (hroom : l.length ≤ room) (start : U32) :
    leafFindSlot room n start = .ok (l.takeWhile fun e => decide (e.1 < start)).length := by
  have hloop : leafFindSlotFrom room n start l.length 0 =
      .ok (0 + (l.takeWhile fun e => decide (e.1 < start)).length) := by
    refine entries_induction (Q := fun i l₂ => leafFindSlotFrom room n start l₂.length i =
      .ok (i + (l₂.takeWhile fun e => decide (e.1 < start)).length)) ?_ fun i e l₂ he hrest => ?_
    · rw [List.length_nil, leafFindSlotFrom, h.nrEntries]
      rfl
    · have hlt := (List.getElem?_eq_some_iff.mp he).1
      rw [List.length_cons, leafFindSlotFrom, MapleNode.getPivot_ok (by omega), MapleM.ok_bind,
        (h.get he).1, List.takeWhile_cons]
      by_cases hge : e.1 < start
      · rw [if_neg (BitVec.not_le.mpr hge), hrest, if_pos (decide_eq_true hge), List.length_cons,
          Nat.add_assoc, Nat.add_comm 1]
      · rw [if_pos (BitVec.not_lt.mp hge), if_neg (by simpa using hge)]
        rfl
  rw [leafFindSlot, h.nrEntries, hloop, Nat.zero_add]

/-- An insertion into a leaf that is not full. -/
theorem MapleNode.HasEntries.insertAt (h : n.HasEntries l) {pos vma : ℕ} {start : U32}
    (hpos : pos ≤ l.length) (hroom : l.length < room) (hlen : l.length < mapleNodeSlots) :
    ∃ n', leafInsertAt room n pos vma start = .ok n' ∧ n'.parent = n.parent ∧
      n'.HasEntries (l.insertIdx pos (start, vma)) := by
  have hnr := h.nrEntries
  have hslots := mapleNodeSlots_eq
  refine ⟨_, leafInsertAt_eq (by omega) (by omega) (by omega), rfl, h.isLeaf, ?_, ?_, ?_⟩
  · rw [List.length_insertIdx_of_le_length hpos]
    dsimp only
    bv_omega
  · rw [List.length_insertIdx_of_le_length hpos]
    omega
  · intro i e he
    rw [List.getElem?_insertIdx] at he
    dsimp only
    rw [hnr]
    by_cases hip : i = pos
    · subst hip
      rw [if_neg (lt_irrefl i), if_pos rfl, if_pos hpos] at he
      obtain rfl := Option.some.inj he
      rw [Function.update_self, Function.update_self]
      exact ⟨rfl, rfl⟩
    · rw [Function.update_of_ne hip, Function.update_of_ne hip]
      unfold shiftedUp
      rcases Nat.lt_or_gt_of_ne hip with hlt | hgt
      · rw [if_pos hlt] at he
        rw [if_neg (by omega), if_neg (by omega)]
        exact h.get he
      · rw [if_neg (by omega), if_neg hip] at he
        have := (List.getElem?_eq_some_iff.mp he).1
        rw [if_pos (by omega), if_pos (by omega)]
        exact h.get he

/-- A removal from a leaf. -/
theorem MapleNode.HasEntries.removeAt (h : n.HasEntries l) {pos : ℕ} (hpos : pos < l.length)
    (hroom : l.length ≤ room) :
    ∃ n', leafRemoveAt room n pos = .ok n' ∧ n'.parent = n.parent ∧
      n'.HasEntries (l.eraseIdx pos) := by
  have hnr := h.nrEntries
  have hle := h.length_le
  refine ⟨_, leafRemoveAt_eq (by omega) (by omega) (by omega), rfl, h.isLeaf, ?_, ?_, ?_⟩
  · rw [List.length_eraseIdx_of_lt hpos]
    dsimp only
    bv_omega
  · rw [List.length_eraseIdx_of_lt hpos]
    omega
  · intro i e he
    have hi := (List.getElem?_eq_some_iff.mp he).1
    rw [List.length_eraseIdx_of_lt hpos] at hi
    rw [List.getElem?_eraseIdx] at he
    dsimp only
    rw [hnr, Function.update_of_ne (by omega), Function.update_of_ne (by omega)]
    unfold shiftedDown
    by_cases hlt : i < pos
    · rw [if_pos hlt] at he
      rw [if_neg (by omega), if_neg (by omega)]
      exact h.get he
    · rw [if_neg hlt] at he
      rw [if_pos (by omega), if_pos (by omega)]
      exact h.get he

/-- **The overlap check** of a leaf. -/
theorem MapleNode.HasEntries.overlaps (h : n.HasEntries l) (start stop : U32) :
    leafOverlaps s n start stop n.nrEntries.toNat 0 = .ok (l.any fun e =>
      decide (start < (s.vmas e.2).stop ∧ (s.vmas e.2).start < stop)) := by
  rw [h.nrEntries]
  refine entries_induction (Q := fun i l₂ => leafOverlaps s n start stop l₂.length i =
    .ok (l₂.any fun e => decide (start < (s.vmas e.2).stop ∧ (s.vmas e.2).start < stop))) rfl
    fun i e l₂ he hrest => ?_
  rw [List.length_cons, leafOverlaps, MapleNode.getSlot_ok (h.lt he), MapleM.ok_bind, (h.get he).2,
    List.any_cons]
  dsimp only
  by_cases hov : start < (s.vmas e.2).stop ∧ (s.vmas e.2).start < stop
  · rw [if_pos hov, decide_eq_true hov, Bool.true_or]
  · rw [if_neg hov, hrest, decide_eq_false hov, Bool.false_or]

/-- **The search of `maple_remove`**: no entry begins at `start`, or the first that does is found. -/
theorem MapleNode.HasEntries.findStart (h : n.HasEntries l) (start : U32) :
    (leafFindStart s n start n.nrEntries.toNat 0 = .ok none ∧ ∀ e ∈ l, (s.vmas e.2).start ≠ start) ∨
    ∃ l₁ e l₂, l = l₁ ++ e :: l₂ ∧ (s.vmas e.2).start = start ∧
      leafFindStart s n start n.nrEntries.toNat 0 = .ok (some (l₁.length, e.2)) := by
  have hloop := entries_induction (l := l) (Q := fun i l₂ =>
    (leafFindStart s n start l₂.length i = .ok none ∧ ∀ e ∈ l₂, (s.vmas e.2).start ≠ start) ∨
    ∃ l₃ e l₄, l₂ = l₃ ++ e :: l₄ ∧ (s.vmas e.2).start = start ∧
      leafFindStart s n start l₂.length i = .ok (some (i + l₃.length, e.2)))
    (.inl ⟨rfl, fun e he => absurd he List.not_mem_nil⟩) fun i e l₂ he hrest => ?_
  · rw [h.nrEntries]
    simpa using hloop
  rw [List.length_cons, leafFindStart, MapleNode.getSlot_ok (h.lt he), MapleM.ok_bind, (h.get he).2]
  dsimp only
  by_cases hstart : (s.vmas e.2).start = start
  · rw [if_pos hstart]
    exact .inr ⟨[], e, l₂, rfl, hstart, rfl⟩
  · rw [if_neg hstart]
    rcases hrest with ⟨hres, hnone⟩ | ⟨l₃, d, l₄, rfl, hd, hres⟩
    · refine .inl ⟨hres, fun d hd => ?_⟩
      rcases List.mem_cons.mp hd with rfl | hd
      exacts [hstart, hnone d hd]
    · refine .inr ⟨e :: l₃, d, l₄, rfl, hd, ?_⟩
      rw [hres, List.length_cons, Nat.add_assoc, Nat.add_comm 1]

/-- **The search of `maple_find`** in a leaf. -/
theorem MapleNode.HasEntries.findAddr (h : n.HasEntries l) (addr : U32) :
    leafFindAddr s n addr n.nrEntries.toNat 0 = .ok ((l.map fun e => s.vmas e.2).find? fun a =>
      decide (a.Holds addr)) := by
  rw [h.nrEntries]
  refine entries_induction (Q := fun i l₂ => leafFindAddr s n addr l₂.length i =
    .ok ((l₂.map fun e => s.vmas e.2).find? fun a => decide (a.Holds addr))) rfl
    fun i e l₂ he hrest => ?_
  rw [List.length_cons, leafFindAddr, MapleNode.getSlot_ok (h.lt he), MapleM.ok_bind, (h.get he).2,
    List.map_cons, List.find?_cons]
  dsimp only
  by_cases hholds : (s.vmas e.2).Holds addr
  · rw [decide_eq_true hholds]
    exact if_pos hholds
  · rw [decide_eq_false hholds, ← hrest]
    exact if_neg hholds

/-- **A full leaf is cut in halves.** -/
theorem MapleNode.HasEntries.split (h : n.HasEntries l) (hfull : l.length = mapleNodeSlots)
    (newLeaf : MapleNode) :
    ∃ a b key e, splitLeaf mapleNodeSlots n newLeaf = .ok (a, b, key) ∧
      a.HasEntries (l.take splitMid) ∧ b.HasEntries (l.drop splitMid) ∧ a.parent = n.parent ∧
      b.parent = newLeaf.parent ∧ l[splitMid]? = some e ∧ key = e.1 := by
  have hnr : n.nrEntries = 10#8 := by
    apply BitVec.eq_of_toNat_eq
    rw [h.nrEntries, hfull]
    rfl
  have hlen : l.length = 10 := hfull
  have hmid : splitMid = 5 := rfl
  obtain ⟨e, he⟩ : ∃ e, l[splitMid]? = some e := ⟨_, List.getElem?_eq_getElem (by omega)⟩
  have hmove : (n.nrEntries.setWidth 32 - BitVec.ofNat 32 splitMid).toNat = 5 := by
    rw [hnr]
    rfl
  -- the loop copies the entries from `splitMid` on and clears them in the old leaf
  refine ⟨{ n with
      pivots := cleared n.pivots (splitMid + 0) 5 0#32
      slots := cleared n.slots (splitMid + 0) 5 none
      nrEntries := BitVec.ofNat 8 splitMid },
    { newLeaf with
      isLeaf := true
      pivots := copied newLeaf.pivots n.pivots splitMid 0 5
      slots := copied newLeaf.slots n.slots splitMid 0 5
      nrEntries := (n.nrEntries.setWidth 32 - BitVec.ofNat 32 splitMid).setWidth 8 },
    copied newLeaf.pivots n.pivots splitMid 0 5 0, e, ?_, ?_, ?_, rfl, rfl, he, (h.get he).1⟩
  · rw [splitLeaf]
    dsimp only
    rw [hmove, splitLeafMove_eq (by decide) (by decide), MapleM.ok_bind]
    dsimp only
    rw [MapleNode.getPivot_ok (by decide), MapleM.ok_bind]
    rfl
  · refine ⟨h.isLeaf, ?_, ?_, fun {i d} hd => ?_⟩
    · rw [List.length_take, hlen]
      rfl
    · rw [List.length_take, hlen]
      decide
    · rw [List.getElem?_take] at hd
      split at hd
      · rename_i hi
        have hno : ¬ (splitMid + 0 ≤ i ∧ i < splitMid + 0 + 5) := by omega
        show cleared n.pivots _ _ _ i = _ ∧ cleared n.slots _ _ _ i = _
        unfold cleared
        rw [if_neg hno, if_neg hno]
        exact h.get hd
      · cases hd
  · refine ⟨rfl, ?_, ?_, fun {i d} hd => ?_⟩
    · rw [List.length_drop, hlen, hnr]
      rfl
    · rw [List.length_drop, hlen]
      decide
    · have hi := (List.getElem?_eq_some_iff.mp hd).1
      rw [List.length_drop] at hi
      rw [List.getElem?_drop] at hd
      have hin : 0 ≤ i ∧ i < 0 + 5 := by omega
      show copied _ n.pivots _ _ _ i = _ ∧ copied _ n.slots _ _ _ i = _
      unfold copied
      rw [if_pos hin, if_pos hin]
      exact h.get hd

end Leaf

end Microkernel.Vma
