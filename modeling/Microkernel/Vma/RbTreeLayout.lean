import Microkernel.Vma.RbTree

/-! # Trees laid out in the node pool

The pool stores a tree when every node's record has the colour, parent and children that the tree
says. Labels are pool entries with their area, so a tree says where each of its nodes lives. The
repair loops look at a tree through a focus, that is as `plug p t`; here are the reads they make
there and the two writes they are built from, recolouring and rotation, as steps from one laid out
tree to the next.

* **`LaidOut`, `PathLaidOut`** — a subtree and a path in the pool.
* **`Tracks`** — what a state holds, and that it differs from an earlier one in the records of these nodes
  only.
-/

namespace Microkernel.Vma

open Function (update update_apply)
open RedBlackTree

/-- A label of the abstract tree: a pool entry and the area stored there. -/
structure Cell where
  /-- The index in `g_pool`. -/
  idx : ℕ
  /-- The area of the node. -/
  area : VmArea

/-- `&g_pool[idx]`. -/
def Cell.ref (k : Cell) : Ref := .pool k.idx

@[simp] theorem Cell.ref_ne_nil (k : Cell) : k.ref ≠ .nil := by simp [Cell.ref]

@[simp] theorem Cell.ref_ne_null (k : Cell) : k.ref ≠ .null := by simp [Cell.ref]

@[simp] theorem Cell.nil_ne_ref (k : Cell) : Ref.nil ≠ k.ref := by simp [Cell.ref]

@[simp] theorem Cell.ref_inj {k k' : Cell} : k.ref = k'.ref ↔ k.idx = k'.idx := by simp [Cell.ref]

@[simp] theorem Cell.pool_eq_ref {k : Cell} {i : ℕ} : Ref.pool i = k.ref ↔ i = k.idx := by
  simp [Cell.ref]

/-- The pointer to a subtree: `NIL` for a leaf. -/
def treeRef : ColorTree Cell → Ref
  | .leaf => .nil
  | .node _ _ k _ => k.ref

@[simp] theorem treeRef_leaf : treeRef .leaf = .nil := rfl

@[simp] theorem treeRef_node (c : Color) (l : ColorTree Cell) (k : Cell) (r : ColorTree Cell) :
    treeRef (.node c l k r) = k.ref := rfl

@[simp] theorem treeRef_build (d : Side) (c : Color) (t : ColorTree Cell) (k : Cell) (u : ColorTree Cell) :
    treeRef (d.build c t k u) = k.ref := by cases d <;> rfl

@[simp] theorem treeRef_fill (f : Frame Cell) (t : ColorTree Cell) : treeRef (f.fill t) = f.key.ref :=
  treeRef_build ..

/-- The colour a subtree's pointer shows: `NIL` is black. -/
def treeColor : ColorTree Cell → Color
  | .leaf => .black
  | .node c _ _ _ => c

@[simp] theorem treeColor_build (d : Side) (c : Color) (t : ColorTree Cell) (k : Cell) (u : ColorTree Cell) :
    treeColor (d.build c t k u) = c := by cases d <;> rfl

/-- The colour index of a balanced tree is the colour its pointer shows. -/
theorem treeColor_of_balanced {t : ColorTree Cell} {c : Color} {n : ℕ} (h : Balanced t c n) :
    treeColor t = c := by cases h <;> rfl

/-- The pointer to the innermost node of a path: `NIL` above the root. -/
def parentOf : Path Cell → Ref
  | [] => .nil
  | f :: _ => f.key.ref

/-- The pool entries of a tree. -/
def idxs (t : ColorTree Cell) : List ℕ := t.toList.map Cell.idx

/-- The pool entries of a path. -/
def pathIdxs (p : Path Cell) : List ℕ := (before p ++ after p).map Cell.idx

/-- The nodes of a tree are its root and those of its subtrees. -/
theorem mem_idxs_build {d : Side} {c : Color} {t u : ColorTree Cell} {k : Cell} {i : ℕ} :
    i ∈ idxs (d.build c t k u) ↔ i = k.idx ∨ i ∈ idxs t ∨ i ∈ idxs u := by
  cases d <;> simp only [Side.build, idxs, ColorTree.toList_node, List.map_append, List.map_cons,
    List.mem_append, List.mem_cons] <;> tauto

/-- The nodes of a path are those of its frames: their keys and siblings. -/
theorem mem_pathIdxs_cons {f : Frame Cell} {p : Path Cell} {i : ℕ} :
    i ∈ pathIdxs (f :: p) ↔ i = f.key.idx ∨ i ∈ idxs f.sibling ∨ i ∈ pathIdxs p := by
  obtain ⟨_ | _, c, k, u⟩ := f <;> simp only [pathIdxs, idxs, before, after, List.map_append,
    List.map_cons, List.map_nil, List.mem_append, List.mem_cons, List.not_mem_nil] <;> tauto

/-- The nodes of two paths in turn. -/
theorem mem_pathIdxs_append {p q : Path Cell} {i : ℕ} :
    i ∈ pathIdxs (p ++ q) ↔ i ∈ pathIdxs p ∨ i ∈ pathIdxs q := by
  simp only [pathIdxs, before_append, after_append, List.map_append, List.mem_append]
  tauto

/-- The entries of a plugged tree are those of the path and of the focus. -/
theorem idxs_plug_perm (p : Path Cell) (t : ColorTree Cell) :
    (idxs (plug p t)).Perm (idxs t ++ pathIdxs p) := by
  rw [idxs, toList_plug, idxs, pathIdxs, ← List.map_append]
  refine List.Perm.map _ ?_
  rw [List.append_assoc, ← List.append_assoc t.toList]
  exact (List.perm_append_comm_assoc _ _ _).trans (by rw [List.append_assoc])

/-- The nodes of a plugged tree are in the subtree or on the path. -/
theorem mem_idxs_plug {p : Path Cell} {t : ColorTree Cell} {i : ℕ} :
    i ∈ idxs (plug p t) ↔ i ∈ idxs t ∨ i ∈ pathIdxs p := by
  rw [(idxs_plug_perm p t).mem_iff, List.mem_append]

/-- With distinct entries, the focus and its path share none. -/
theorem nodup_idxs_plug {p : Path Cell} {t : ColorTree Cell} :
    (idxs (plug p t)).Nodup ↔
      (idxs t).Nodup ∧ (pathIdxs p).Nodup ∧ ∀ i ∈ idxs t, i ∉ pathIdxs p := by
  rw [(idxs_plug_perm p t).nodup_iff, List.nodup_append']
  rfl

/-- With distinct entries, the root and the two subtrees of a node share none. -/
theorem nodup_idxs_build {d : Side} {c : Color} {t u : ColorTree Cell} {k : Cell} :
    (idxs (d.build c t k u)).Nodup ↔ (idxs t).Nodup ∧ (idxs u).Nodup ∧ k.idx ∉ idxs t ∧
      k.idx ∉ idxs u ∧ ∀ i ∈ idxs t, i ∉ idxs u := by
  cases d <;> simp only [Side.build, idxs, ColorTree.toList_node, List.map_append, List.map_cons,
    List.nodup_append', List.nodup_cons, List.disjoint_cons_right] <;>
    simp only [List.Disjoint] <;> grind

/-- A frame's entries are entries of its path. -/
theorem mem_pathIdxs_of_mem {p : Path Cell} {f : Frame Cell} (hf : f ∈ p) {i : ℕ}
    (hi : i = f.key.idx ∨ i ∈ idxs f.sibling) : i ∈ pathIdxs p := by
  induction p with
  | nil => simp at hf
  | cons g p ih =>
      rw [mem_pathIdxs_cons]
      rcases List.mem_cons.mp hf with rfl | hf
      · tauto
      · exact .inr (.inr (ih hf))

/-- The root of a subtree is one of its entries. -/
theorem treeRef_eq (t : ColorTree Cell) : treeRef t = .nil ∨ ∃ i ∈ idxs t, treeRef t = .pool i := by
  cases t with
  | leaf => exact .inl rfl
  | node c l k r => exact .inr ⟨k.idx, by simp [idxs], rfl⟩

/-- A node that is not of the tree is not its root. -/
theorem treeRef_ne_pool {t : ColorTree Cell} {i : ℕ} (hi : i ∉ idxs t) : treeRef t ≠ .pool i := by
  rcases treeRef_eq t with h | ⟨j, hj, h⟩ <;> rw [h]
  · simp
  · rintro ⟨rfl⟩
    exact hi hj

/-- A path has no more frames than entries. -/
theorem length_le_pathIdxs (p : Path Cell) : p.length ≤ (pathIdxs p).length := by
  induction p with
  | nil => simp
  | cons f p ih =>
      obtain ⟨_ | _, c, k, u⟩ := f <;> simp only [pathIdxs, before, after, List.length_map,
        List.length_append, List.length_cons, List.length_nil] at ih ⊢ <;> omega

/-! ### Records by side -/

/-- The record with `x` on side `d` and `y` on the other. -/
def nodeOn (d : Side) (area : VmArea) (c : Color) (par x y : Ref) : RbNode :=
  match d with
  | .left => ⟨area, c, par, x, y⟩
  | .right => ⟨area, c, par, y, x⟩

section nodeOn
variable {d : Side} {area : VmArea} {c c' : Color} {par par' x y z : Ref}

/-- The child on the side named. -/
@[simp] theorem nodeOn_child : (nodeOn d area c par x y).child d = x := by cases d <;> rfl

/-- The child on the other side. -/
@[simp] theorem nodeOn_child_other : (nodeOn d area c par x y).child d.other = y := by
  cases d <;> rfl

@[simp] theorem nodeOn_parent : (nodeOn d area c par x y).parent = par := by cases d <;> rfl

@[simp] theorem nodeOn_color : (nodeOn d area c par x y).color = c := by cases d <;> rfl

@[simp] theorem nodeOn_area : (nodeOn d area c par x y).area = area := by cases d <;> rfl

/-- A new child on the side named. -/
@[simp] theorem nodeOn_setChild :
    (nodeOn d area c par x y).setChild d z = nodeOn d area c par z y := by cases d <;> rfl

/-- A new child on the other side. -/
@[simp] theorem nodeOn_setChild_other :
    (nodeOn d area c par x y).setChild d.other z = nodeOn d area c par x z := by cases d <;> rfl

/-- A new parent. -/
@[simp] theorem nodeOn_setParent :
    { nodeOn d area c par x y with parent := par' } = nodeOn d area c par' x y := by
  cases d <;> rfl

/-- A new colour. -/
@[simp] theorem nodeOn_setColor :
    { nodeOn d area c par x y with color := c' } = nodeOn d area c' par x y := by
  cases d <;> rfl

end nodeOn

/-! ### Writes and the fields they leave alone -/

namespace RbState

variable (s : RbState) (d : Side) (x y r : Ref) (c : Color) (f : RbNode → RbNode)

/-- A modification of one node leaves the others. -/
theorem mem_modify : (s.modify x f).mem r = if r = x then f (s.mem x) else s.mem r :=
  update_apply ..

/-- Writing a child link writes one node. -/
theorem mem_setChild :
    (s.setChild d x y).mem r = if r = x then (s.mem x).setChild d y else s.mem r := mem_modify ..

/-- Writing a parent link writes one node. -/
theorem mem_setParent :
    (s.setParent x y).mem r = if r = x then { s.mem x with parent := y } else s.mem r :=
  mem_modify ..

/-- Writing a colour writes one node. -/
theorem mem_setColor :
    (s.setColor x c).mem r = if r = x then { s.mem x with color := c } else s.mem r :=
  mem_modify ..

@[simp] theorem mem_setRoot : (s.setRoot x).mem = s.mem := rfl
@[simp] theorem root_setRoot : (s.setRoot x).root = x := rfl
@[simp] theorem root_setChild : (s.setChild d x y).root = s.root := rfl
@[simp] theorem root_setParent : (s.setParent x y).root = s.root := rfl
@[simp] theorem root_setColor : (s.setColor x c).root = s.root := rfl

end RbState

/-! ### Layout -/

/-- The memory `m` holds the tree below the parent `par`. -/
def LaidOut (m : Ref → RbNode) : Ref → ColorTree Cell → Prop
  | _, .leaf => True
  | par, .node c l k r =>
      m k.ref = ⟨k.area, c, par, treeRef l, treeRef r⟩ ∧ LaidOut m k.ref l ∧ LaidOut m k.ref r

/-- The state holds the path around a focus with pointer `hole`. -/
def PathLaidOut (s : RbState) : Path Cell → Ref → Prop
  | [], hole => s.root = hole
  | f :: p, hole =>
      s.mem f.key.ref = nodeOn f.side f.key.area f.color (parentOf p) hole (treeRef f.sibling) ∧
        LaidOut s.mem f.key.ref f.sibling ∧ PathLaidOut s p f.key.ref

/-- A tree is laid out when its root is, with the links to both subtrees, and they are. -/
theorem laidOut_build {m : Ref → RbNode} {par : Ref} {d : Side} {c : Color} {t u : ColorTree Cell}
    {k : Cell} :
    LaidOut m par (d.build c t k u) ↔
      m k.ref = nodeOn d k.area c par (treeRef t) (treeRef u) ∧
        LaidOut m k.ref t ∧ LaidOut m k.ref u := by
  cases d
  · rfl
  · simp only [Side.build, LaidOut, nodeOn]
    tauto

/-- Only the records of a tree's own entries matter. -/
theorem LaidOut.congr {m m' : Ref → RbNode} {par : Ref} {t : ColorTree Cell} (h : LaidOut m par t)
    (hm : ∀ i ∈ idxs t, m' (.pool i) = m (.pool i)) : LaidOut m' par t := by
  induction t generalizing par with
  | leaf => trivial
  | node c l k r ihl ihr =>
      obtain ⟨hk, hl, hr⟩ := h
      simp only [idxs, ColorTree.toList_node, List.map_append, List.map_cons, List.mem_append,
        List.mem_cons] at hm
      refine ⟨?_, ihl hl fun i hi => hm i (.inl hi), ihr hr fun i hi => hm i (.inr (.inr hi))⟩
      rw [← hk]
      exact hm k.idx (.inr (.inl rfl))

/-- Changing the parent field of a subtree's root moves the subtree below another parent. -/
theorem LaidOut.reparent {m m' : Ref → RbNode} {par par' : Ref} {t : ColorTree Cell}
    (h : LaidOut m par t) (hnd : (idxs t).Nodup)
    (hroot : treeRef t ≠ .nil → m' (treeRef t) = { m (treeRef t) with parent := par' })
    (hm : ∀ i ∈ idxs t, .pool i ≠ treeRef t → m' (.pool i) = m (.pool i)) :
    LaidOut m' par' t := by
  cases t with
  | leaf => trivial
  | node c l k r =>
      obtain ⟨hk, hl, hr⟩ := h
      obtain ⟨-, -, hkl, hkr, -⟩ := (nodup_idxs_build (d := .left)).mp hnd
      have hsub : ∀ i, i ∈ idxs l ∨ i ∈ idxs r → m' (.pool i) = m (.pool i) := by
        intro i hi
        refine hm i ((mem_idxs_build (d := .left)).mpr (.inr hi)) fun hik => ?_
        have hik : i = k.idx := by simpa [Cell.ref] using hik
        subst hik
        exact hi.elim hkl hkr
      refine ⟨?_, hl.congr fun i hi => hsub i (.inl hi), hr.congr fun i hi => hsub i (.inr hi)⟩
      have := hroot (by simp)
      rw [treeRef_node] at this
      rw [this, hk]

/-- Only the root pointer and the records of a path's own entries matter. -/
theorem PathLaidOut.congr {s s' : RbState} {p : Path Cell} {hole : Ref}
    (h : PathLaidOut s p hole) (hroot : s'.root = s.root)
    (hm : ∀ i ∈ pathIdxs p, s'.mem (.pool i) = s.mem (.pool i)) : PathLaidOut s' p hole := by
  induction p generalizing hole with
  | nil => exact hroot.trans h
  | cons f p ih =>
      obtain ⟨hf, hu, hp⟩ := h
      simp only [mem_pathIdxs_cons] at hm
      refine ⟨?_, hu.congr fun i hi => hm i (.inr (.inl hi)), ih hp fun i hi => hm i (.inr (.inr hi))⟩
      rw [← hf]
      exact hm _ (.inl rfl)

/-- A laid out tree, seen through any focus. -/
theorem laidOut_plug {s : RbState} {p : Path Cell} {t : ColorTree Cell} :
    s.root = treeRef (plug p t) ∧ LaidOut s.mem .nil (plug p t) ↔
      PathLaidOut s p (treeRef t) ∧ LaidOut s.mem (parentOf p) t := by
  induction p generalizing t with
  | nil => rfl
  | cons f p ih =>
      rw [plug_cons, ih, treeRef_fill, Frame.fill, laidOut_build]
      simp only [PathLaidOut, parentOf]
      tauto

/-- The node at the focus of a path hangs from the path's innermost frame or is the root. -/
def RbState.hang (s : RbState) (p : Path Cell) (y : Ref) : RbState :=
  match p with
  | [] => s.setRoot y
  | f :: _ => s.setChild f.side f.key.ref y

/-- Hanging a node writes to no record outside the path. -/
theorem RbState.mem_hang {s : RbState} {p : Path Cell} {y r : Ref}
    (hr : ∀ i ∈ pathIdxs p, r ≠ .pool i) : (s.hang p y).mem r = s.mem r := by
  cases p with
  | nil => rfl
  | cons f p => exact (mem_setChild ..).trans (if_neg (hr _ (mem_pathIdxs_cons.mpr (.inl rfl))))

/-- Hanging another node below a path. -/
theorem PathLaidOut.hang {s : RbState} {p : Path Cell} {x : Ref} (h : PathLaidOut s p x)
    (hnd : (pathIdxs p).Nodup) (y : Ref) : PathLaidOut (s.hang p y) p y := by
  cases p with
  | nil => rfl
  | cons f p =>
      obtain ⟨hf, hu, hp⟩ := h
      have hnd' : (idxs (plug p (f.fill .leaf))).Nodup := by
        have := (idxs_plug_perm (f :: p) .leaf).nodup_iff.mpr (by simpa [idxs] using hnd)
        exact this
      obtain ⟨hfill, -, hout⟩ := nodup_idxs_plug.mp hnd'
      obtain ⟨-, -, -, hku, -⟩ := nodup_idxs_build.mp hfill
      have hkp := hout f.key.idx (mem_idxs_build.mpr (.inl rfl))
      have hne : ∀ i, i ∈ idxs f.sibling ∨ i ∈ pathIdxs p →
          (s.hang (f :: p) y).mem (.pool i) = s.mem (.pool i) := by
        intro i hi
        refine (RbState.mem_setChild ..).trans (if_neg fun h => ?_)
        obtain rfl := Cell.pool_eq_ref.mp h
        exact hi.elim hku hkp
      refine ⟨?_, hu.congr fun i hi => hne i (.inl hi), hp.congr rfl fun i hi => hne i (.inr hi)⟩
      rw [RbState.hang, RbState.mem_setChild, if_pos rfl, hf, nodeOn_setChild]

/-- The source's way to replace `x` by `y` below the parent of `x`, testing side `d` first. -/
theorem PathLaidOut.replace_eq {s : RbState} {p : Path Cell} {x : Ref} (h : PathLaidOut s p x)
    (s' : RbState) (d : Side) (y : Ref) (hx : ∀ f ∈ p, treeRef f.sibling ≠ x)
    (hm : ∀ f ∈ p, (s'.mem f.key.ref).child d = (s.mem f.key.ref).child d) :
    (if parentOf p = .nil then s'.setRoot y
      else if x = s'.child d (parentOf p) then s'.setChild d (parentOf p) y
      else s'.setChild d.other (parentOf p) y) = s'.hang p y := by
  cases p with
  | nil => rfl
  | cons f p =>
      have hf := h.1
      have hxf := hx f (by simp)
      have hm := hm f (by simp)
      rw [parentOf, if_neg (by simp), RbState.child, hm, hf]
      obtain ⟨e, c, k, u⟩ := f
      by_cases hde : d = e
      · subst hde
        rw [if_pos (by simp)]
        rfl
      · have hd : d = e.other := by
          cases d <;> cases e <;> first | rfl | exact absurd rfl hde
        subst hd
        rw [if_neg (by simpa using fun h => hxf h.symm), Side.other_other]
        rfl

/-! ### Steps between laid out trees -/

/-- The state `s` holds the tree `T` with the in-order labels `L`, and differs from `s₀` only in the
records of `L` and in the root pointer. -/
structure RbState.Tracks (s₀ s : RbState) (L : List Cell) (T : ColorTree Cell) : Prop where
  /-- The labels in order. -/
  toList : T.toList = L
  /-- Every label has its own pool entry. -/
  nodup : (L.map Cell.idx).Nodup
  root : s.root = treeRef T
  laidOut : LaidOut s.mem .nil T
  nilBlack : (s.mem .nil).color = .black
  /-- Other entries and the sentinel are as they were. -/
  outside : ∀ x, (∀ k ∈ L, x ≠ k.ref) → s.mem x = s₀.mem x
  freeHead : s.freeHead = s₀.freeHead
  count : s.count = s₀.count

namespace RbState.Tracks

variable {s₀ s s' : RbState} {L : List Cell} {p : Path Cell} {t t' a b e u : ColorTree Cell} {d : Side}
  {c c' : Color} {k x y : Cell}

/-- The layout around a focus. -/
theorem focus (h : s₀.Tracks s L (plug p t)) :
    PathLaidOut s p (treeRef t) ∧ LaidOut s.mem (parentOf p) t :=
  laidOut_plug.mp ⟨h.root, h.laidOut⟩

/-- The entries around a focus are distinct. -/
theorem nodup_focus (h : s₀.Tracks s L (plug p t)) :
    (idxs t).Nodup ∧ (pathIdxs p).Nodup ∧ ∀ i ∈ idxs t, i ∉ pathIdxs p := by
  rw [← nodup_idxs_plug, idxs, h.toList]
  exact h.nodup

/-- The entries of the focus are entries of the whole tree. -/
theorem ne_of_mem_focus (h : s₀.Tracks s L (plug p t)) {r : Ref} (hr : ∀ k ∈ L, r ≠ k.ref) {i : ℕ}
    (hi : i ∈ idxs t) : r ≠ .pool i := by
  have hi : i ∈ idxs (plug p t) := mem_idxs_plug.mpr (.inl hi)
  rw [idxs, h.toList, List.mem_map] at hi
  obtain ⟨k, hk, rfl⟩ := hi
  exact hr k hk

/-- A reference that is none of the listed cells is no node of the path. -/
theorem ne_of_mem_path (h : s₀.Tracks s L (plug p t)) {r : Ref} (hr : ∀ k ∈ L, r ≠ k.ref) {i : ℕ}
    (hi : i ∈ pathIdxs p) : r ≠ .pool i := by
  have hi : i ∈ idxs (plug p t) := mem_idxs_plug.mpr (.inr hi)
  rw [idxs, h.toList, List.mem_map] at hi
  obtain ⟨k, hk, rfl⟩ := hi
  exact hr k hk

/-- The record at a focused node. -/
theorem mem_focus (h : s₀.Tracks s L (plug p (d.build c t k u))) :
    s.mem k.ref = nodeOn d k.area c (parentOf p) (treeRef t) (treeRef u) :=
  (laidOut_build.mp h.focus.2).1

/-- The colour read at the focus is that of the subtree. -/
theorem color_focus (h : s₀.Tracks s L (plug p t)) : s.color (treeRef t) = treeColor t := by
  cases t with
  | leaf => exact h.nilBlack
  | node c l k r => rw [treeRef_node, RbState.color, mem_focus (d := .left) h]; rfl

/-- The parent read at the focus is the last frame of the path. -/
theorem parent_focus (h : s₀.Tracks s L (plug p (d.build c t k u))) :
    s.parent k.ref = parentOf p := by rw [RbState.parent, h.mem_focus, nodeOn_parent]

/-- The child read on a side is the subtree there. -/
theorem child_focus (h : s₀.Tracks s L (plug p (d.build c t k u))) :
    s.child d k.ref = treeRef t := by rw [RbState.child, h.mem_focus, nodeOn_child]

/-- The child read on the other side is the subtree there. -/
theorem child_other_focus (h : s₀.Tracks s L (plug p (d.build c t k u))) :
    s.child d.other k.ref = treeRef u := by rw [RbState.child, h.mem_focus, nodeOn_child_other]

/-- A focused node is not the other child of its parent. -/
theorem treeRef_ne (h : s₀.Tracks s L (plug p (d.build c t k u))) (hne : t ≠ .leaf ∨ u ≠ .leaf) :
    treeRef t ≠ treeRef u := by
  obtain ⟨-, -, -, -, hdisj⟩ := nodup_idxs_build.mp h.nodup_focus.1
  cases t <;> cases u
  · simp at hne
  · simp
  · simp
  · rename_i k _ _ _ k' _
    intro heq
    have heq : k.idx = k'.idx := by simpa [Cell.ref] using heq
    exact hdisj k.idx (by simp [idxs]) (by simp [idxs, heq])

/-- Rewriting the focus into a tree with the same labels. -/
theorem step (h : s₀.Tracks s L (plug p t)) (hlist : t'.toList = t.toList)
    (hpath : PathLaidOut s' p (treeRef t')) (hfocus : LaidOut s'.mem (parentOf p) t')
    (hout : ∀ r, (∀ k ∈ L, r ≠ k.ref) → s'.mem r = s.mem r) (hfree : s'.freeHead = s.freeHead)
    (hcount : s'.count = s.count) : s₀.Tracks s' L (plug p t') := by
  obtain ⟨hroot, hlaid⟩ := laidOut_plug.mpr ⟨hpath, hfocus⟩
  have hnil : s'.mem .nil = s.mem .nil := hout .nil (by simp)
  exact
    { toList := (toList_plug_congr hlist).trans h.toList
      nodup := h.nodup
      root := hroot
      laidOut := hlaid
      nilBlack := by rw [hnil]; exact h.nilBlack
      outside := fun r hr => (hout r hr).trans (h.outside r hr)
      freeHead := hfree.trans h.freeHead
      count := hcount.trans h.count }

/-- **Recolouring** the focused node. -/
theorem setColor (h : s₀.Tracks s L (plug p (d.build c t k u))) (c' : Color) :
    s₀.Tracks (s.setColor k.ref c') L (plug p (d.build c' t k u)) := by
  obtain ⟨hpath, hfocus⟩ := h.focus
  obtain ⟨hmem, ht, hu⟩ := laidOut_build.mp hfocus
  obtain ⟨hnd, -, hout⟩ := h.nodup_focus
  obtain ⟨-, -, hkt, hku, -⟩ := nodup_idxs_build.mp hnd
  have hsame : ∀ i, i ≠ k.idx → (s.setColor k.ref c').mem (.pool i) = s.mem (.pool i) := by
    intro i hi
    rw [mem_setColor, if_neg (by simpa [Cell.ref] using hi)]
  refine h.step (by cases d <;> rfl) ?_ (laidOut_build.mpr ⟨?_, ?_, ?_⟩) ?_ rfl rfl
  · rw [treeRef_build] at hpath ⊢
    refine hpath.congr rfl fun i hi => hsame i fun hik => ?_
    exact hout k.idx (mem_idxs_build.mpr (.inl rfl)) (hik ▸ hi)
  · rw [mem_setColor, if_pos rfl, hmem, nodeOn_setColor]
  · exact ht.congr fun i hi => hsame i fun hik => hkt (hik ▸ hi)
  · exact hu.congr fun i hi => hsame i fun hik => hku (hik ▸ hi)
  · intro r hr
    have hrk : r ≠ k.ref := h.ne_of_mem_focus hr (mem_idxs_build.mpr (.inl rfl))
    rw [mem_setColor, if_neg hrk]

end RbState.Tracks

/-- The guarded write of a rotation: `if (b != NIL) b->parent = x`. -/
def RbState.adopt (s : RbState) (b x : Ref) : RbState := if b ≠ .nil then s.setParent b x else s

/-- Adopting a subtree writes the parent of its root, never of the sentinel. -/
theorem RbState.mem_adopt {s : RbState} {b x r : Ref} :
    (s.adopt b x).mem r = if r = b ∧ b ≠ .nil then { s.mem b with parent := x } else s.mem r := by
  by_cases hb : b = .nil
  · rw [adopt, if_neg (by simpa using hb), if_neg (by tauto)]
  · rw [adopt, if_pos hb, mem_setParent]
    simp [hb]

namespace RbState.Tracks

variable {s₀ s s' : RbState} {L : List Cell} {p : Path Cell} {t t' a b e u : ColorTree Cell} {d : Side}
  {c c' : Color} {k x y : Cell}

/-- The entries around a rotation are distinct. -/
theorem rotate_distinct (h : s₀.Tracks s L (plug p (d.build c a x (d.build c' b y e)))) :
    x.idx ≠ y.idx ∧ (∀ i ∈ idxs a, i ≠ x.idx ∧ i ≠ y.idx ∧ i ∉ idxs b) ∧
      (∀ i ∈ idxs b, i ≠ x.idx ∧ i ≠ y.idx ∧ i ∉ pathIdxs p) ∧
      (∀ i ∈ idxs e, i ≠ x.idx ∧ i ≠ y.idx ∧ i ∉ idxs b) ∧
      (∀ i ∈ idxs a, i ∉ pathIdxs p) ∧ (∀ i ∈ idxs e, i ∉ pathIdxs p) ∧
      x.idx ∉ pathIdxs p ∧ y.idx ∉ pathIdxs p := by
  obtain ⟨hnd, -, hout⟩ := h.nodup_focus
  obtain ⟨-, hndy, hxa, hxy, hay⟩ := nodup_idxs_build.mp hnd
  obtain ⟨-, -, hyb, hye, hbe⟩ := nodup_idxs_build.mp hndy
  simp only [mem_idxs_build] at hxy hay hout
  grind

/-- A rotation, with the values it reads put in. -/
theorem rotate_eq (h : s₀.Tracks s L (plug p (d.build c a x (d.build c' b y e)))) :
    Vma.rotate d x.ref s =
      (((((s.setChild d.other x.ref (treeRef b)).adopt (treeRef b) x.ref).setParent y.ref
        (parentOf p)).hang p y.ref).setChild d y.ref x.ref).setParent x.ref y.ref := by
  obtain ⟨hpath, hfocus⟩ := h.focus
  obtain ⟨hx, ha, hY⟩ := laidOut_build.mp hfocus
  obtain ⟨hy, hb, he⟩ := laidOut_build.mp hY
  obtain ⟨hxy, -, hbi, -, -, -, hxp, hyp⟩ := h.rotate_distinct
  have hyx : y.ref ≠ x.ref := by simpa [Cell.ref] using hxy.symm
  have hchild : s.child d.other x.ref = y.ref := by simp [RbState.child, hx]
  have hnear : s.child d y.ref = treeRef b := by simp [RbState.child, hy]
  have hbx : x.ref ≠ treeRef b := (treeRef_ne_pool fun hi => (hbi _ hi).1 rfl).symm
  have hnear₁ : (s.setChild d.other x.ref (treeRef b)).child d y.ref = treeRef b := by
    rw [child, mem_setChild, if_neg hyx, ← child, hnear]
  have hpar₂ : ((s.setChild d.other x.ref (treeRef b)).adopt (treeRef b) x.ref).parent x.ref =
      parentOf p := by
    rw [parent, mem_adopt, if_neg (by tauto), mem_setChild, if_pos rfl, hx, nodeOn_setChild_other,
      nodeOn_parent]
  have hpar₃ : (((s.setChild d.other x.ref (treeRef b)).adopt (treeRef b) x.ref).setParent y.ref
      (parentOf p)).parent x.ref = parentOf p := by
    rw [parent, mem_setParent, if_neg hyx.symm, ← parent, hpar₂]
  simp only [Vma.rotate, hchild, hnear, hnear₁]
  rw [← adopt, hpar₂, hpar₃]
  refine congrArg (fun s₄ : RbState => (s₄.setChild d y.ref x.ref).setParent x.ref y.ref)
    (PathLaidOut.replace_eq (by simpa using hpath) _ d y.ref ?_ ?_)
  · exact fun f hf => treeRef_ne_pool fun hi => hxp (mem_pathIdxs_of_mem hf (.inr hi))
  · intro f hf
    have hfp := mem_pathIdxs_of_mem hf (.inl rfl)
    have hfx : f.key.ref ≠ x.ref := fun h => hxp (Cell.ref_inj.mp h ▸ hfp)
    have hfy : f.key.ref ≠ y.ref := fun h => hyp (Cell.ref_inj.mp h ▸ hfp)
    have hfb : f.key.ref ≠ treeRef b := (treeRef_ne_pool fun hi => (hbi _ hi).2.2 hfp).symm
    rw [mem_setParent, if_neg hfy, mem_adopt, if_neg (by tauto), mem_setChild, if_neg hfx]

/-- **Rotation** at the focused node. -/
theorem rotate (h : s₀.Tracks s L (plug p (d.build c a x (d.build c' b y e)))) :
    s₀.Tracks (Vma.rotate d x.ref s) L (plug p (d.build c' (d.build c a x b) y e)) := by
  obtain ⟨hpath, hfocus⟩ := h.focus
  obtain ⟨hx, ha, hY⟩ := laidOut_build.mp hfocus
  obtain ⟨hy, hb, he⟩ := laidOut_build.mp hY
  obtain ⟨hxy, hai, hbi, hei, hap, hep, hxp, hyp⟩ := h.rotate_distinct
  -- the nodes that are written are different: `x`, `y`, the root of `b` and the parent
  have hyx : y.ref ≠ x.ref := by simpa using hxy.symm
  have hbx : treeRef b ≠ x.ref := treeRef_ne_pool fun hi => (hbi _ hi).1 rfl
  have hby : treeRef b ≠ y.ref := treeRef_ne_pool fun hi => (hbi _ hi).2.1 rfl
  have hpx : ∀ i ∈ pathIdxs p, x.ref ≠ .pool i := fun i hi h =>
    hxp (Cell.pool_eq_ref.mp h.symm ▸ hi)
  have hpy : ∀ i ∈ pathIdxs p, y.ref ≠ .pool i := fun i hi h =>
    hyp (Cell.pool_eq_ref.mp h.symm ▸ hi)
  rw [h.rotate_eq]
  -- the state before the parent is told about `y`, and the state at the end
  set s₃ := ((s.setChild d.other x.ref (treeRef b)).adopt (treeRef b) x.ref).setParent y.ref
    (parentOf p) with hs₃
  set s₆ := ((s₃.hang p y.ref).setChild d y.ref x.ref).setParent x.ref y.ref with hs₆
  have hsame₃ : ∀ r, r ≠ x.ref → r ≠ y.ref → (r = treeRef b → treeRef b = .nil) →
      s₃.mem r = s.mem r := by
    intro r hrx hry hrb
    rw [hs₃, mem_setParent, if_neg hry, mem_adopt, if_neg (by tauto), mem_setChild, if_neg hrx]
  have hsame₆ : ∀ r, r ≠ x.ref → r ≠ y.ref → s₆.mem r = (s₃.hang p y.ref).mem r := by
    intro r hrx hry
    rw [hs₆, mem_setParent, if_neg hrx, mem_setChild, if_neg hry]
  have hsame : ∀ i, i ≠ x.idx → i ≠ y.idx → i ∉ idxs b → i ∉ pathIdxs p →
      s₆.mem (.pool i) = s.mem (.pool i) := by
    intro i hix hiy hib hip
    rw [hsame₆ _ (by simpa using hix) (by simpa using hiy), mem_hang fun j hj h => ?_,
      hsame₃ _ (by simpa using hix) (by simpa using hiy)]
    · exact fun hi => absurd hi.symm (treeRef_ne_pool hib)
    · cases h
      exact hip hj
  -- the records of `x` and `y` at the end, and the subtree `b`, whose root has another parent
  have hx₆ : s₆.mem x.ref = nodeOn d x.area c y.ref (treeRef a) (treeRef b) := by
    rw [hs₆, mem_setParent, if_pos rfl, mem_setChild, if_neg hyx.symm, mem_hang hpx, hs₃,
      mem_setParent, if_neg hyx.symm, mem_adopt, if_neg (by tauto), mem_setChild, if_pos rfl, hx,
      nodeOn_setChild_other, nodeOn_setParent]
  have hy₆ : s₆.mem y.ref = nodeOn d y.area c' (parentOf p) x.ref (treeRef e) := by
    rw [hs₆, mem_setParent, if_neg hyx, mem_setChild, if_pos rfl, mem_hang hpy, hs₃,
      mem_setParent, if_pos rfl, mem_adopt, if_neg (by tauto), mem_setChild, if_neg hyx, hy,
      nodeOn_setParent, nodeOn_setChild]
  have hb₆ : LaidOut s₆.mem x.ref b := by
    refine hb.reparent ?_ ?_ ?_
    · exact (nodup_idxs_build.mp (nodup_idxs_build.mp h.nodup_focus.1).2.1).1
    · intro hnil
      obtain ⟨i, hi, hbi'⟩ := (treeRef_eq b).resolve_left hnil
      have hbp : ∀ j ∈ pathIdxs p, treeRef b ≠ .pool j := by
        rintro j hj h
        cases hbi'.symm.trans h
        exact (hbi i hi).2.2 hj
      rw [hsame₆ _ hbx hby, mem_hang hbp, hs₃, mem_setParent, if_neg hby, mem_adopt,
        if_pos ⟨rfl, hnil⟩, mem_setChild, if_neg hbx]
    · intro i hi hib
      obtain ⟨hix, hiy, hip⟩ := hbi i hi
      rw [hsame₆ _ (by simpa using hix) (by simpa using hiy), mem_hang fun j hj h => ?_,
        hsame₃ _ (by simpa using hix) (by simpa using hiy)]
      · exact fun h => absurd h hib
      · cases h
        exact hip hj
  -- the way from the root now ends at `y`
  have hpath₃ : PathLaidOut s₃ p x.ref := by
    rw [treeRef_build] at hpath
    refine hpath.congr ?_ fun i hi => hsame₃ _ ?_ ?_ ?_
    · rw [hs₃, root_setParent, adopt]
      split <;> rfl
    · exact fun h => hxp (Cell.pool_eq_ref.mp h ▸ hi)
    · exact fun h => hyp (Cell.pool_eq_ref.mp h ▸ hi)
    · exact fun h => absurd h.symm (treeRef_ne_pool fun hib => (hbi i hib).2.2 hi)
  have hpath₆ : PathLaidOut s₆ p y.ref :=
    (hpath₃.hang h.nodup_focus.2.1 y.ref).congr rfl fun i hi =>
      hsame₆ _ (fun h => hxp (Cell.pool_eq_ref.mp h ▸ hi)) fun h => hyp (Cell.pool_eq_ref.mp h ▸ hi)
  refine h.step (by cases d <;> simp [Side.build]) (by rwa [treeRef_build])
    (laidOut_build.mpr ⟨by rw [hy₆, treeRef_build], laidOut_build.mpr ⟨hx₆, ?_, hb₆⟩, ?_⟩) ?_ ?_ ?_
  · exact ha.congr fun i hi => hsame i (hai i hi).1 (hai i hi).2.1 (hai i hi).2.2 (hap i hi)
  · exact he.congr fun i hi => hsame i (hei i hi).1 (hei i hi).2.1 (hei i hi).2.2 (hep i hi)
  · intro r hr
    have hrx : r ≠ x.ref := h.ne_of_mem_focus hr (mem_idxs_build.mpr (.inl rfl))
    have hry : r ≠ y.ref := h.ne_of_mem_focus hr (by simp [mem_idxs_build])
    rw [hsame₆ _ hrx hry, mem_hang fun i hi => h.ne_of_mem_path hr hi, hsame₃ _ hrx hry]
    intro hrb
    refine (treeRef_eq b).resolve_right ?_
    rintro ⟨i, hi, hbi⟩
    refine h.ne_of_mem_focus hr (i := i) ?_ (hrb.trans hbi)
    simp only [mem_idxs_build]
    tauto
  · rw [hs₆, hs₃, adopt]
    cases p <;> split <;> rfl
  · rw [hs₆, hs₃, adopt]
    cases p <;> split <;> rfl

end RbState.Tracks

end Microkernel.Vma
