import Microkernel.Vma.RbTreeInvariant

/-! # The traversal of `rb_dump`

The nodes in address order, without a stack: behind a node comes the leftmost one of its right subtree or,
when that is empty, the first node that the way up enters from the left. A focus in the tree knows what has
been visited: what is still to come is its right subtree and what lies after its path.

* **`rbDumpVisit_spec`, `rbDumpClimb_spec`** — the loop and its way up, from any focus.
* **`rbDump_visits_in_order`** — after every run the traversal ends and visits each node once, in
  ascending order of the starts.
-/

namespace Microkernel.Vma

open RedBlackTree

/-! ### The loops -/

/-- The way up in `rb_dump` from `cur` with parent `p`. -/
def rbDumpClimb : ℕ → Ref → Ref → RbState → Option Ref
  | 0, _, _, _ => none
  | n + 1, cur, p, s =>
      if p ≠ .nil ∧ cur = s.child .right p then rbDumpClimb n p (s.parent p) s else some p

/-- The next node in `rb_dump`. The source writes the loop of `tree_minimum` out. -/
def rbDumpNext (cur : Ref) (s : RbState) : Option Ref :=
  if s.child .right cur ≠ .nil then treeMinimum rbFuel (s.child .right cur) s
  else rbDumpClimb rbFuel cur (s.parent cur) s

/-- The loop of `rb_dump`: the nodes it visits from `cur` on. -/
def rbDumpVisit : ℕ → Ref → RbState → Option (List Ref)
  | 0, _, _ => none
  | n + 1, cur, s =>
      if cur ≠ .nil then
        (rbDumpNext cur s).bind fun next => (rbDumpVisit n next s).map (cur :: ·)
      else some []

/-- The nodes that `rb_dump` visits, in order. -/
def rbDumpNodes (s : RbState) : Option (List Ref) :=
  if s.count = 0 then some []
  else (treeMinimum rbFuel s.root s).bind fun cur => rbDumpVisit rbFuel cur s

/-- A line of `rb_dump`. -/
inductive RbDumpLine where
  | noVmas
  | vma (idx : ℕ) (start stop kib : U32) (read write exec : Char) (name : NamePtr)

/-- What is printed for the node with number `idx`; a `NULL` name is printed as `?`. -/
def rbDumpLine (idx : ℕ) (a : VmArea) : RbDumpLine :=
  .vma idx a.start a.stop ((a.stop - a.start) / 1024#32)
    (if a.flags &&& 1#32 ≠ 0#32 then 'r' else '-')
    (if a.flags &&& 2#32 ≠ 0#32 then 'w' else '-')
    (if a.flags &&& 4#32 ≠ 0#32 then 'x' else '-') a.name

/-- `rb_dump()`. -/
def rbDump (s : RbState) : Option (List RbDumpLine) :=
  if s.count = 0 then some [.noVmas]
  else (rbDumpNodes s).map fun xs => xs.mapIdx fun i x => rbDumpLine i (s.mem x).area

/-- A tree with a node is not referred to by the sentinel. -/
theorem treeRef_ne_nil {t : ColorTree Cell} (h : t ≠ .leaf) : treeRef t ≠ .nil := by
  cases t with
  | leaf => exact absurd rfl h
  | node c l k r => exact k.ref_ne_nil

/-! ### The way up -/

section Dump
variable {s : RbState} {T : ColorTree Cell} {free : List ℕ}

/-- **The way up ends at the first node after the path**: at the parent whose left child it comes from, or
at `NIL`. -/
theorem rbDumpClimb_spec (h : s.Stores T free) {p : Path Cell} {t : ColorTree Cell} {n : ℕ}
    (hT : T = plug p t) (ht : t ≠ .leaf) (hn : p.length < n) :
    (after p = [] ∧ rbDumpClimb n (treeRef t) (parentOf p) s = some .nil) ∨
      ∃ q c l k r, T = plug q (.node c l k r) ∧ after p = k :: r.toList ++ after q ∧
        rbDumpClimb n (treeRef t) (parentOf p) s = some k.ref := by
  induction p generalizing t n with
  | nil =>
    obtain ⟨n, rfl⟩ := Nat.exists_eq_add_of_le' (Nat.one_le_of_lt hn)
    exact .inl ⟨rfl, if_neg fun hc => hc.1 rfl⟩
  | cons f p ih =>
    obtain ⟨n, rfl⟩ := Nat.exists_eq_add_of_le' (Nat.one_le_of_lt hn)
    obtain ⟨d, c, k, u⟩ := f
    have htracks : s.Tracks s T.toList (plug p (d.build c t k u)) := hT ▸ h.tracks
    cases d with
    | left =>
      -- the focus is the left child: its parent comes next
      refine .inr ⟨p, c, t, k, u, hT, rfl, if_neg fun hc => ?_⟩
      exact htracks.treeRef_ne (.inl ht) (hc.2.trans htracks.child_other_focus)
    | right =>
      have hright : treeRef t = s.child .right k.ref := htracks.child_focus.symm
      have hup : rbDumpClimb (n + 1) (treeRef t) k.ref s = rbDumpClimb n k.ref (parentOf p) s := by
        rw [rbDumpClimb, if_pos ⟨k.ref_ne_nil, hright⟩, htracks.parent_focus]
      rw [parentOf, hup]
      exact ih (t := .node c u k t) hT (by simp) (Nat.lt_of_succ_lt_succ hn)

/-- The nodes after a focused node. -/
theorem rbDumpNext_spec (h : s.Stores T free) {p : Path Cell} {c : Color} {l r : ColorTree Cell}
    {k : Cell} (hT : T = plug p (.node c l k r)) :
    (r.toList ++ after p = [] ∧ rbDumpNext k.ref s = some .nil) ∨
      ∃ q c' l' k' r', T = plug q (.node c' l' k' r') ∧
        r.toList ++ after p = k' :: r'.toList ++ after q ∧ rbDumpNext k.ref s = some k'.ref := by
  have htracks : s.Tracks s T.toList (plug p (Side.right.build c r k l)) := hT ▸ h.tracks
  have hright : s.child .right k.ref = treeRef r := htracks.child_focus
  have hlen : (idxs (plug p (.node c l k r))).length < rbFuel := by
    rw [← hT, idxs, List.length_map]
    exact h.length_lt
  rw [(idxs_plug_perm p _).length_eq, List.length_append] at hlen
  by_cases hr : r = .leaf
  · subst hr
    have hnext : rbDumpNext k.ref s = rbDumpClimb rbFuel k.ref (parentOf p) s := by
      rw [rbDumpNext, hright, if_neg (not_not.mpr treeRef_leaf), htracks.parent_focus]
    rw [hnext]
    exact rbDumpClimb_spec h hT (by simp) ((length_le_pathIdxs p).trans_lt (by omega))
  · -- the leftmost node of the right subtree, with the path down to it
    have hlaid : LaidOut s.mem k.ref r := (laidOut_build.mp htracks.focus.2).2.1
    have hr_len : r.toList.length ≤ rbFuel := by
      rw [idxs, List.length_map, ColorTree.toList_node, List.length_append, List.length_cons] at hlen
      omega
    obtain ⟨m, c', y, u, hplug, hbefore, hmin⟩ := treeMinimum_spec rbFuel hlaid hr hr_len
    have hnext : rbDumpNext k.ref s = some y.ref := by
      rw [rbDumpNext, hright, if_pos (treeRef_ne_nil hr), hmin]
    refine .inr ⟨m ++ ⟨.right, c, k, l⟩ :: p, c', .leaf, y, u, ?_, ?_, hnext⟩
    · rw [plug_append, ← hplug, hT]
      rfl
    · rw [hplug, toList_plug, hbefore, after_append]
      simp [after]

/-- **The loop visits the focused node and the nodes after it**, in order. -/
theorem rbDumpVisit_spec (h : s.Stores T free) {p : Path Cell} {c : Color} {l r : ColorTree Cell}
    {k : Cell} (hT : T = plug p (.node c l k r)) {n : ℕ}
    (hn : (k :: r.toList ++ after p).length < n) :
    rbDumpVisit n k.ref s = some ((k :: r.toList ++ after p).map Cell.ref) := by
  induction n generalizing p c l k r with
  | zero => exact absurd hn (Nat.not_lt_zero _)
  | succ n ih =>
    rw [List.cons_append, List.length_cons] at hn
    rw [rbDumpVisit, if_pos k.ref_ne_nil, List.cons_append, List.map_cons]
    rcases rbDumpNext_spec h hT with ⟨hrest, hnext⟩ | ⟨q, c', l', k', r', hT', hrest, hnext⟩
    · obtain ⟨n, rfl⟩ := Nat.exists_eq_add_of_le' (Nat.one_le_of_lt (Nat.lt_of_succ_lt_succ hn))
      rw [hnext, hrest]
      rfl
    · rw [hrest] at hn ⊢
      rw [hnext, Option.bind_some, ih hT' (Nat.lt_of_succ_lt_succ hn)]
      rfl

/-- **`rb_dump` visits the nodes of the stored tree in order.** -/
theorem rbDumpNodes_stores (h : s.Stores T free) :
    rbDumpNodes s = some (T.toList.map Cell.ref) := by
  unfold rbDumpNodes
  split
  · rename_i hcount
    rw [List.length_eq_zero_iff.mp (h.count.symm.trans hcount)]
    rfl
  · rename_i hcount
    have hT : T ≠ .leaf := by
      rintro rfl
      exact hcount h.count
    obtain ⟨m, c, y, u, hplug, hbefore, hmin⟩ :=
      treeMinimum_spec rbFuel h.laidOut hT h.length_lt.le
    have hlist : T.toList = y :: u.toList ++ after m := by
      rw [hplug, toList_plug, hbefore]
      rfl
    rw [h.root, hmin, Option.bind_some, rbDumpVisit_spec h hplug (hlist ▸ h.length_lt), hlist]

/-- The areas of the visited nodes are those of the tree. -/
theorem map_area_stores (h : s.Stores T free) :
    (T.toList.map Cell.ref).map (fun x => (s.mem x).area) = areasOf T := by
  rw [List.map_map, areasOf]
  refine List.map_congr_left fun k hk => ?_
  obtain ⟨p, c, l, r, rfl⟩ := exists_focus hk
  have htracks : s.Tracks s (plug p (.node c l k r)).toList (plug p (Side.left.build c l k r)) := h.tracks
  show (s.mem k.ref).area = k.area
  rw [htracks.mem_focus, nodeOn_area]

end Dump

/-- **`rb_dump` after every run of the backend** ends, visits the nodes of the tree once each and in strictly
ascending order of their starts, and prints a line for each of them. -/
theorem rbDump_visits_in_order (s₀ : RbState) (calls : List VmaCall) :
    ∃ s answers, (rbOps.machine s₀).run calls = some (s, answers) ∧ ∃ xs, rbDumpNodes s = some xs ∧
      xs.Nodup ∧ (∀ x, x ∈ xs ↔ s.InTree x) ∧
      (xs.map fun x => (s.mem x).area.start).Pairwise (· < ·) ∧
      rbDump s = some (if s.count = 0 then [.noVmas]
        else xs.mapIdx fun i x => rbDumpLine i (s.mem x).area) := by
  obtain ⟨s, os, hs, S, T, free, hT, -⟩ := Machine.run_invariant (M := rbOps.machine s₀)
    (I := fun s => ∃ S : AreaSet, s.Lists S) ⟨_, rbInit_lists s₀⟩
    (fun s c ⟨S, hS⟩ => by
      obtain ⟨s', S', o, hs, -, hl⟩ := rbOps_call_lists hS c
      exact ⟨s', o, hs, S', hl⟩) calls
  have hnodes := rbDumpNodes_stores hT
  refine ⟨s, os, hs, _, hnodes, ?_, fun x => ?_, ?_, ?_⟩
  · have hnd := (List.nodup_append.mp hT.nodup).1
    rw [idxs] at hnd
    have hmap : T.toList.map Cell.ref = (T.toList.map Cell.idx).map Ref.pool := by
      rw [List.map_map]
      rfl
    rw [hmap]
    exact hnd.map fun i j hij => Ref.pool.inj hij
  · rw [hT.inTree_iff, idxs]
    simp only [List.mem_map]
    constructor
    · rintro ⟨k, hk, rfl⟩
      exact ⟨k.idx, ⟨k, hk, rfl⟩, rfl⟩
    · rintro ⟨i, ⟨k, hk, rfl⟩, rfl⟩
      exact ⟨k, hk, rfl⟩
  · have hmap : (T.toList.map Cell.ref).map (fun x => (s.mem x).area.start) =
        (areasOf T).map VmArea.start := by
      rw [← map_area_stores hT]
      simp only [List.map_map]
      rfl
    rw [hmap, List.pairwise_map]
    exact hT.separated.ordered.imp_of_mem fun ha _ hle =>
      (hT.separated.nonempty _ ha).trans_le hle
  · unfold rbDump
    rw [hnodes]
    split <;> rfl

end Microkernel.Vma
