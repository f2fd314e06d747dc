import Microkernel.Vma.RbTree

/-! # Overlap along the search path

`rb_add` looks for an overlap only on its way down, and the tree is ordered by the starts of its areas
alone. For a search tree of any shape and any colours that is enough: what the descent leaves aside at a
node is separated from the new range by the area of that node.

* **`TreeAt`, `IsSearchTree`** — the nodes from a reference on form a tree, and its areas are in the order
  of their starts and disjoint.
* **`rbAddDescend_complete`** — for each of them and each range that is not empty, the descent meets an
  overlap exactly when there is one.
-/

namespace Microkernel.Vma

/-- **The nodes from `x` on** along `left` and `right` form a finite tree: its areas from left to right,
and its height. Colours and parents do not matter. -/
inductive RbState.TreeAt (s : RbState) : Ref → List VmArea → ℕ → Prop
  | nil : s.TreeAt .nil [] 0
  | node {x : Ref} {left right : List VmArea} {n m : ℕ} : x ≠ .nil →
      s.TreeAt (s.child .left x) left n → s.TreeAt (s.child .right x) right m →
      s.TreeAt x (left ++ (s.mem x).area :: right) (max n m + 1)

/-- A search tree: the areas are in the order of their starts, non-empty, and pairwise disjoint. -/
structure IsSearchTree (areas : List VmArea) : Prop where
  sorted : areas.Pairwise fun a b => a.start ≤ b.start
  nonempty : ∀ a ∈ areas, a.start < a.stop
  disjoint : areas.Pairwise fun a b => ¬ a.Overlaps b

/-- Its areas lie one behind the other. -/
theorem IsSearchTree.separated {areas : List VmArea} (h : IsSearchTree areas) : Separated areas :=
  IntervalList.separated_of_sorted h.nonempty h.sorted h.disjoint

/-- **The descent** ends, and it stops at an overlap exactly when there is one in the tree. The induction
is over the tree; at a node without an overlap the subtree that is left aside has none either. -/
theorem rbAddDescend_treeAt {s : RbState} {x : Ref} {areas : List VmArea} {height : ℕ}
    (h : s.TreeAt x areas height) (hsep : Separated areas) (new : VmArea) {n : ℕ} (hn : height < n)
    (parent : Ref) :
    ∃ r, rbAddDescend s new.start new.stop n parent x = some r ∧
      (r = none ↔ ∃ a ∈ areas, new.Overlaps a) := by
  induction h generalizing n parent with
  | nil =>
    obtain ⟨n, rfl⟩ : ∃ n', n = n' + 1 := ⟨n - 1, by omega⟩
    exact ⟨some parent, by simp [rbAddDescend], by simp⟩
  | @node x left right k m hx _ _ ihl ihr =>
    obtain ⟨n, rfl⟩ : ∃ n', n = n' + 1 := ⟨n - 1, by omega⟩
    have hl := hsep.sublist (List.sublist_append_left ..)
    have hr := hsep.sublist ((List.sublist_cons_self ..).trans (List.sublist_append_right ..))
    rw [rbAddDescend, if_pos hx]
    dsimp only
    by_cases hover : new.Overlaps (s.mem x).area
    · refine ⟨none, if_pos (VmArea.overlaps_iff.mp hover), fun _ => ⟨_, by simp, hover⟩, fun _ => rfl⟩
    rw [if_neg (mt VmArea.overlaps_iff.mpr hover)]
    by_cases hlow : new.start < (s.mem x).area.start
    · -- the right subtree is left aside
      obtain ⟨r, hres, hiff⟩ := ihl hl (by omega : k < n) x
      have haside := hsep.not_overlaps_of_lt hover hlow
      refine ⟨r, by rw [if_pos hlow, hres], hiff.trans ⟨fun ⟨a, ha, hov⟩ => ⟨a, by simp [ha], hov⟩, ?_⟩⟩
      rintro ⟨a, ha, hov⟩
      rcases List.mem_append.mp ha with ha | ha
      · exact ⟨a, ha, hov⟩
      · rcases List.mem_cons.mp ha with rfl | ha
        exacts [absurd hov hover, absurd hov (haside a ha)]
    · -- the left subtree is left aside
      obtain ⟨r, hres, hiff⟩ := ihr hr (by omega : m < n) x
      have haside := hsep.not_overlaps_of_le (x := new) (BitVec.not_lt.mp hlow)
      refine ⟨r, by rw [if_neg hlow, hres], hiff.trans ⟨fun ⟨a, ha, hov⟩ => ⟨a, by simp [ha], hov⟩, ?_⟩⟩
      rintro ⟨a, ha, hov⟩
      rcases List.mem_append.mp ha with ha | ha
      · exact absurd hov (haside a ha)
      · rcases List.mem_cons.mp ha with rfl | ha
        exacts [absurd hov hover, ⟨a, ha, hov⟩]

/-- **Overlap detection along the search path is complete**: in every search tree of areas, of any shape,
the descent of `rb_add` meets a node that overlaps `[start, end)` exactly when some node of the tree
does. -/
theorem rbAddDescend_complete {s : RbState} {x : Ref} {areas : List VmArea} {height : ℕ}
    (htree : s.TreeAt x areas height) (hsearch : IsSearchTree areas) {start stop : U32}
    {n : ℕ} (hn : height < n) (parent : Ref) :
    ∃ r, rbAddDescend s start stop n parent x = some r ∧
      (r = none ↔ ∃ a ∈ areas, start < a.stop ∧ a.start < stop) := by
  obtain ⟨r, hres, hiff⟩ := rbAddDescend_treeAt htree hsearch.separated ⟨start, stop, 0#32, .null⟩ hn parent
  simp only [VmArea.overlaps_iff] at hiff
  exact ⟨r, hres, hiff⟩

/-- Three areas. -/
def threeAreas : List VmArea :=
  [⟨0x1000#32, 0x2000#32, 3#32, .null⟩, ⟨0x3000#32, 0x5000#32, 3#32, .null⟩,
    ⟨0x8000#32, 0x9000#32, 3#32, .null⟩]

/-- Their tree, which leans to the right. -/
def leaningTree : RbState where
  mem
    | .pool 0 => ⟨⟨0x1000#32, 0x2000#32, 3#32, .null⟩, .red, .nil, .nil, .pool 1⟩
    | .pool 1 => ⟨⟨0x3000#32, 0x5000#32, 3#32, .null⟩, .red, .pool 0, .nil, .pool 2⟩
    | .pool 2 => ⟨⟨0x8000#32, 0x9000#32, 3#32, .null⟩, .red, .pool 1, .nil, .nil⟩
    | _ => ⟨.zero, .black, .nil, .nil, .nil⟩
  freeHead := .null
  root := .pool 0
  count := 3

/-- The case of three areas in a tree that leans to the right, and a range that meets one of them. -/
theorem rbAddDescend_complete_leaning :
    ∃ r, rbAddDescend leaningTree 0x4000#32 0x6000#32 rbFuel .nil (.pool 0) = some r ∧
      (r = none ↔ ∃ a ∈ threeAreas, 0x4000#32 < a.stop ∧ a.start < 0x6000#32) := by
  have h₂ : leaningTree.TreeAt (.pool 2) _ _ := .node (by simp) .nil .nil
  have h₁ : leaningTree.TreeAt (.pool 1) _ _ := .node (by simp) .nil h₂
  have h₀ : leaningTree.TreeAt (.pool 0) _ _ := .node (by simp) .nil h₁
  have hsearch : IsSearchTree threeAreas := ⟨by decide, by decide, by decide⟩
  exact rbAddDescend_complete h₀ hsearch (by decide) .nil

end Microkernel.Vma
