import Microkernel.Lib.RedBlackTree
import Microkernel.Vma.Area
import Mathlib.Logic.Function.Basic

/-! # The red-black tree backend

`vma_rbtree.c`: the nodes live in a static pool of 256, leaves are one shared sentinel `NIL`, free
nodes are chained through their `right` field. Memory is a map from references to nodes, and every
function of the source is a function on the static data. The functions that the source writes out
for left and right are one definition with a side, applied to each side under the source's name.

* **`Ref`, `RbNode`, `RbState`** — a pointer, a node, and the static data.
* **`rbAdd`, `rbRemove`, `rbFind`** — the operations, with the descent, the rotations and the two repair
  loops above them.
-/

namespace Microkernel.Vma

open Function (update)
open RedBlackTree (Color Side)

/-- A `rb_node_t*`: `NULL`, the sentinel `NIL`, or `&g_pool[i]`. -/
inductive Ref where
  | null
  | nil
  | pool (i : ℕ)
  deriving DecidableEq, Repr

/-- `rb_node_t`. -/
structure RbNode where
  /-- The public view. -/
  area : VmArea
  /-- `RB_BLACK` or `RB_RED`. -/
  color : Color
  parent : Ref
  left : Ref
  right : Ref
  deriving DecidableEq, Repr

namespace RbNode

/-- The `left` or `right` field. -/
def child (n : RbNode) : Side → Ref
  | .left => n.left
  | .right => n.right

/-- Assignment to the `left` or `right` field. -/
def setChild (n : RbNode) (d : Side) (x : Ref) : RbNode :=
  match d with
  | .left => { n with left := x }
  | .right => { n with right := x }

end RbNode

/-- The static data: the pool with the sentinel, `g_free_head`, `g_root` and `g_count`. -/
structure RbState where
  /-- `g_pool` and `g_nil_node`. -/
  mem : Ref → RbNode
  /-- `g_free_head`. -/
  freeHead : Ref
  /-- `g_root`. -/
  root : Ref
  /-- `g_count`. -/
  count : ℕ

namespace RbState

/-- Write a whole node. -/
def modify (s : RbState) (x : Ref) (f : RbNode → RbNode) : RbState :=
  { s with mem := update s.mem x (f (s.mem x)) }

/-- `x->parent`. -/
def parent (s : RbState) (x : Ref) : Ref := (s.mem x).parent

/-- `x->left` or `x->right`. -/
def child (s : RbState) (d : Side) (x : Ref) : Ref := (s.mem x).child d

/-- `x->color`. -/
def color (s : RbState) (x : Ref) : Color := (s.mem x).color

/-- `x->parent = y`. -/
def setParent (s : RbState) (x y : Ref) : RbState := s.modify x fun n => { n with parent := y }

/-- `x->left = y` or `x->right = y`. -/
def setChild (s : RbState) (d : Side) (x y : Ref) : RbState := s.modify x fun n => n.setChild d y

/-- `x->color = c`. -/
def setColor (s : RbState) (x : Ref) (c : Color) : RbState := s.modify x fun n => { n with color := c }

/-- `g_root = x`. -/
def setRoot (s : RbState) (x : Ref) : RbState := { s with root := x }

end RbState

/-- `RB_MAX_NODES`. -/
def rbMaxNodes : ℕ := 256

/-- Rounds a loop may take: one for each pool node and one for the exit test. A loop that has not
ended by then returns `none`. -/
def rbFuel : ℕ := rbMaxNodes + 1

/-! ### The node pool -/

/-- `pool_init`: chain the pool in index order. -/
def poolInit (s : RbState) : RbState where
  mem
    | .pool i =>
        if i < rbMaxNodes - 1 then { s.mem (.pool i) with right := .pool (i + 1) }
        else if i = rbMaxNodes - 1 then { s.mem (.pool i) with right := .null }
        else s.mem (.pool i)
    | x => s.mem x
  freeHead := .pool 0
  root := s.root
  count := s.count

/-- `pool_alloc`: take the first free node and reset it, or `NULL`. -/
def poolAlloc (s : RbState) : RbState × Option Ref :=
  if s.freeHead = .null then (s, none)
  else
    let n := s.freeHead
    ({ s with
        freeHead := s.child .right n
        mem := update s.mem n ⟨.zero, .red, .nil, .nil, .nil⟩ }, some n)

/-- `pool_free(n)`: put a node in front of the free chain. -/
def poolFree (s : RbState) (n : Ref) : RbState :=
  { s.setChild .right n s.freeHead with freeHead := n }

/-! ### Rotations -/

/-- The rotation that moves `x` down on side `d` and its child on the other side up. -/
def rotate (d : Side) (x : Ref) (s : RbState) : RbState :=
  let y := s.child d.other x
  let s := s.setChild d.other x (s.child d y)
  -- the sentinel keeps its parent
  let s := if s.child d y ≠ .nil then s.setParent (s.child d y) x else s
  let s := s.setParent y (s.parent x)
  let s :=
    -- `y` takes the place of `x` under its parent
    if s.parent x = .nil then s.setRoot y
    else if x = s.child d (s.parent x) then s.setChild d (s.parent x) y
    else s.setChild d.other (s.parent x) y
  let s := s.setChild d y x
  s.setParent x y

/-- `rotate_left(x)`. -/
def rotateLeft (x : Ref) (s : RbState) : RbState := rotate .left x s

/-- `rotate_right(x)`. -/
def rotateRight (x : Ref) (s : RbState) : RbState := rotate .right x s

/-- The rotations by side. -/
def rotateSide : Side → Ref → RbState → RbState
  | .left => rotateLeft
  | .right => rotateRight

/-- The rotation by side is the one of the tree. -/
@[simp] theorem rotateSide_eq (d : Side) : rotateSide d = rotate d := by cases d <;> rfl

/-! ### Insertion repair -/

/-- One round of `insert_fixup(z)` when the parent is the child on side `d` of the grandparent. -/
def insertFixupSide (d : Side) (z : Ref) (s : RbState) : Ref × RbState :=
  let uncle := s.child d.other (s.parent (s.parent z))
  if s.color uncle = .red then
    -- Case 1
    let s := s.setColor (s.parent z) .black
    let s := s.setColor uncle .black
    let s := s.setColor (s.parent (s.parent z)) .red
    (s.parent (s.parent z), s)
  else
    -- Case 2
    let (z, s) :=
      if z = s.child d.other (s.parent z) then
        let z := s.parent z
        (z, rotateSide d z s)
      else (z, s)
    -- Case 3
    let s := s.setColor (s.parent z) .black
    let s := s.setColor (s.parent (s.parent z)) .red
    (z, rotateSide d.other (s.parent (s.parent z)) s)

/-- One round of `insert_fixup(z)`. -/
def insertFixupStep (z : Ref) (s : RbState) : Ref × RbState :=
  if s.parent z = s.child .left (s.parent (s.parent z)) then insertFixupSide .left z s
  else insertFixupSide .right z s

/-- `insert_fixup(z)`. -/
def insertFixup : ℕ → Ref → RbState → Option RbState
  | 0, _, _ => none
  | n + 1, z, s =>
      if s.color (s.parent z) = .red then
        let r := insertFixupStep z s
        insertFixup n r.1 r.2
      -- the root is black in the end
      else some (s.setColor s.root .black)

/-! ### Deletion repair -/

/-- The part of a round of `delete_fixup(x)` after case 1, with the sibling `w`. -/
def deleteFixupSibling (d : Side) (x w : Ref) (s : RbState) : Ref × RbState :=
  if s.color (s.child d w) = .black ∧ s.color (s.child d.other w) = .black then
    -- Case 2
    let s := s.setColor w .red
    (s.parent x, s)
  else
    -- Case 3
    let (w, s) :=
      if s.color (s.child d.other w) = .black then
        let s := s.setColor (s.child d w) .black
        let s := s.setColor w .red
        let s := rotateSide d.other w s
        (s.child d.other (s.parent x), s)
      else (w, s)
    -- Case 4
    let s := s.setColor w (s.color (s.parent x))
    let s := s.setColor (s.parent x) .black
    let s := s.setColor (s.child d.other w) .black
    let s := rotateSide d (s.parent x) s
    (s.root, s)

/-- One round of `delete_fixup(x)` when `x` is the child on side `d` of its parent. -/
def deleteFixupSide (d : Side) (x : Ref) (s : RbState) : Ref × RbState :=
  let w := s.child d.other (s.parent x)
  if s.color w = .red then
    -- Case 1
    let s := s.setColor w .black
    let s := s.setColor (s.parent x) .red
    let s := rotateSide d (s.parent x) s
    deleteFixupSibling d x (s.child d.other (s.parent x)) s
  else deleteFixupSibling d x w s

/-- One round of `delete_fixup(x)`. -/
def deleteFixupStep (x : Ref) (s : RbState) : Ref × RbState :=
  if x = s.child .left (s.parent x) then deleteFixupSide .left x s
  else deleteFixupSide .right x s

/-- `delete_fixup(x)`. -/
def deleteFixup : ℕ → Ref → RbState → Option RbState
  | 0, _, _ => none
  | n + 1, x, s =>
      if x ≠ s.root ∧ s.color x = .black then
        let r := deleteFixupStep x s
        deleteFixup n r.1 r.2
      -- a red node, or the root, takes the missing black
      else some (s.setColor x .black)

/-- `transplant(u, v)`: put `v` where `u` hangs. -/
def transplant (u v : Ref) (s : RbState) : RbState :=
  let s :=
    if s.parent u = .nil then s.setRoot v
    else if u = s.child .left (s.parent u) then s.setChild .left (s.parent u) v
    else s.setChild .right (s.parent u) v
  -- also of the sentinel: `delete_fixup` starts from its parent
  s.setParent v (s.parent u)

/-- `tree_minimum(x)`. -/
def treeMinimum : ℕ → Ref → RbState → Option Ref
  | 0, _, _ => none
  | n + 1, x, s => if s.child .left x ≠ .nil then treeMinimum n (s.child .left x) s else some x

/-! ### Operations -/

/-- `rb_init`. -/
def rbInit (s : RbState) : RbState :=
  poolInit
    { s with
      mem := update s.mem .nil ⟨.zero, .black, .nil, .nil, .nil⟩
      root := .nil
      count := 0 }

/-- The descent of `rb_add`: `some none` when a node on the way overlaps `[start, end)`, otherwise
the last node before the free place. -/
def rbAddDescend (s : RbState) (start stop : U32) : ℕ → Ref → Ref → Option (Option Ref)
  | 0, _, _ => none
  | n + 1, parent, cur =>
      if cur ≠ .nil then
        let a := (s.mem cur).area
        if start < a.stop ∧ a.start < stop then some none
        else if start < a.start then rbAddDescend s start stop n cur (s.child .left cur)
        else rbAddDescend s start stop n cur (s.child .right cur)
      else some (some parent)

/-- The part of `rb_add` after the descent has reached a free place below `parent`. -/
def rbAddNode (s : RbState) (start stop flags : U32) (name : NamePtr) (parent : Ref) :
    Option (RbState × Int) :=
  match poolAlloc s with
  | (s, none) => some (s, -1)
  | (s, some z) =>
      let s := s.modify z fun n => { n with area := ⟨start, stop, flags, name⟩, parent := parent }
      let s :=
        if parent = .nil then s.setRoot z
        else if start < (s.mem parent).area.start then s.setChild .left parent z
        else s.setChild .right parent z
      (insertFixup rbFuel z s).map fun s => ({ s with count := s.count + 1 }, 0)

/-- `rb_add(start, end, flags, name)`. -/
def rbAdd (s : RbState) (start stop flags : U32) (name : NamePtr) : Option (RbState × Int) :=
  if s.count ≥ rbMaxNodes then some (s, -1)
  else if start ≥ stop then some (s, -1)
  else if ¬ start.PageAligned ∨ ¬ stop.PageAligned then some (s, -1)
  else
    match rbAddDescend s start stop rbFuel .nil s.root with
    | none => none
    | some none => some (s, -1)
    | some (some parent) => rbAddNode s start stop flags name parent

/-- The search of `rb_remove`. -/
def rbSearch (s : RbState) (start : U32) : ℕ → Ref → Option Ref
  | 0, _ => none
  | n + 1, z =>
      if z ≠ .nil then
        if start = (s.mem z).area.start then some z
        else if start < (s.mem z).area.start then rbSearch s start n (s.child .left z)
        else rbSearch s start n (s.child .right z)
      else some z

/-- The case of `rb_remove` where `z` has two children and `y` is its successor: the node that takes
the place of `y`, and the state. -/
def rbSplice (z y : Ref) (s : RbState) : Ref × RbState :=
  let x := s.child .right y
  let s :=
    -- `x` may be the sentinel, whose parent must be right for the repair
    if s.parent y = z then s.setParent x y
    else
      let s := transplant y (s.child .right y) s
      let s := s.setChild .right y (s.child .right z)
      s.setParent (s.child .right y) y
  let s := transplant z y s
  let s := s.setChild .left y (s.child .left z)
  let s := s.setParent (s.child .left y) y
  (x, s.setColor y (s.color z))

/-- The unlinking part of `rb_remove`: the replacement `x`, the colour that was taken out of the
tree, and the state. -/
def rbUnlink (z : Ref) (s : RbState) : Option (Ref × Color × RbState) :=
  if s.child .left z = .nil then
    some (s.child .right z, s.color z, transplant z (s.child .right z) s)
  else if s.child .right z = .nil then
    some (s.child .left z, s.color z, transplant z (s.child .left z) s)
  else
    (treeMinimum rbFuel (s.child .right z) s).map fun y =>
      let r := rbSplice z y s
      (r.1, s.color y, r.2)

/-- `rb_remove(start)`. -/
def rbRemove (s : RbState) (start : U32) : Option (RbState × Int) :=
  match rbSearch s start rbFuel s.root with
  | none => none
  | some z =>
      if z = .nil then some (s, -1)
      else
        match rbUnlink z s with
        | none => none
        | some (x, yOrigColor, s) =>
            -- only a black node leaves a path one short
            let fixed := if yOrigColor = .black then deleteFixup rbFuel x s else some s
            fixed.map fun s =>
              let s := poolFree s z
              ({ s with count := s.count - 1 }, 0)

/-- The loop of `rb_find`. -/
def rbFindFrom (s : RbState) (addr : U32) : ℕ → Ref → Option (Option VmArea)
  | 0, _ => none
  | n + 1, cur =>
      if cur ≠ .nil then
        if addr < (s.mem cur).area.start then rbFindFrom s addr n (s.child .left cur)
        else if addr ≥ (s.mem cur).area.stop then rbFindFrom s addr n (s.child .right cur)
        else some (some (s.mem cur).area)
      else some none

/-- `rb_find(addr)`. -/
def rbFind (s : RbState) (addr : U32) : Option (Option VmArea) := rbFindFrom s addr rbFuel s.root

/-- `rb_count()`. -/
def rbCount (s : RbState) : ℕ := s.count

/-- `rb_ops`. -/
def rbOps : VmaOps RbState where
  init := rbInit
  add := rbAdd
  remove := rbRemove
  find := rbFind
  count := rbCount

end Microkernel.Vma
